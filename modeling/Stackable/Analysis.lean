import Stackable.Parser.Decl
import Stackable.Allocation.Context
import Stackable.Allocation.Escape
import Stackable.Allocation.Size
import Stackable.Rule.Basic

/-!
# Findings

An array creation is reported if it stands where a frame can hold it, is small, and does not
leave the frame. A source with errors is not analysed: recovery drops what it cannot read, and
with it uses of a local.
-/

set_option autoImplicit false

namespace Stackable

/-- Line and column of a finding, both counted from one, with the text of the line. -/
structure Location where
  line : Nat
  /-- In UTF-16 code units. -/
  column : Nat
  lineText : String
deriving Repr, DecidableEq

structure Finding where
  rule : String
  severity : Severity
  message : String
  allocation : String
  location : Location
  /-- The `=` in front of the allocation. -/
  span : Span
  allocationSpan : Span
  fix : String
deriving Repr, DecidableEq

structure Analysis where
  model : Model
  lines : LineMap
  allowUnsafe : Bool
  severity : Severity := Rule.smallArrayOnStack.severity
  prover : EscapeProver := Site.escape

namespace Analysis

def location (a : Analysis) (span : Span) : Location :=
  let p := a.lines.editorPosition span.start
  ⟨p.line, p.column, String.ofList ((a.lines.lineText? p.line).getD [])⟩

def isCandidate (a : Analysis) (s : Site) : Bool :=
  match s.context a.model.tree, s.size a.model, a.prover s with
  | .eligible, .sized _, .confined => true
  | _, _, _ => false

def report (a : Analysis) (s : Site) : Option Finding :=
  (s.expr.span.text? a.lines.source).map fun text =>
    let span := ((s.localVar.bind (·.init)).map (·.mark)).getD s.expr.span
    { rule := Rule.smallArrayOnStack.id
      severity := a.severity
      message := Rule.finding (String.ofList text)
      allocation := String.ofList text
      location := a.location span
      span
      allocationSpan := s.expr.span
      fix := Rule.smallArrayOnStack.fix }

def findingAt? (a : Analysis) (e : Expr) : Option Finding :=
  if a.allowUnsafe then
    (Site.ofExpr? a.model e).bind fun s => if a.isCandidate s then a.report s else none
  else none

def findings (a : Analysis) : List Finding :=
  (a.model.tree.arrayCreations.filterMap a.findingAt?).mergeSort
    fun x y => decide (x.span.start ≤ y.span.start)

end Analysis

structure FileReport where
  file : String
  findings : List Finding
  lexErrors : List LexError
  parseErrors : List ParseError

namespace FileReport

/-- The source was read without errors. -/
def isReadable (r : FileReport) : Bool := r.lexErrors.isEmpty && r.parseErrors.isEmpty

def errorCount (r : FileReport) : Nat := r.lexErrors.length + r.parseErrors.length

def warningCount (r : FileReport) : Nat := (r.findings.filter (·.severity == .warning)).length

end FileReport

def findingsInUnit (source : List Char) (unit : CompilationUnit) (o : Options) : List Finding :=
  if o.shouldRun Rule.smallArrayOnStack.id then
    Analysis.findings
      { model := .ofUnit unit
        lines := .ofSource source
        allowUnsafe := o.allowUnsafe
        severity := o.severityFor .smallArrayOnStack }
  else []

def analyzeSource (source : List Char) (file : String) (o : Options) : FileReport :=
  let lexed := Lexer.tokenize source
  let (unit, parseErrors) := parseTokens lexed.tokens
  let findings :=
    if lexed.errors.isEmpty && parseErrors.isEmpty then findingsInUnit source unit o else []
  ⟨file, findings, lexed.errors, parseErrors⟩

end Stackable
