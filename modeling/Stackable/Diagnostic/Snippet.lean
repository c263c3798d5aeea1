import Stackable.Diagnostic.Basic
import Stackable.Text.Style

/-!
# Diagnostics on a terminal

A diagnostic is shown with the lines of source that its labels are about. Below each line a row
underlines the labels, `^` for primary ones and `-` for others; the message of the rightmost label
follows on the same row, and the other messages hang below their labels. All columns count bytes.
-/

set_option autoImplicit false

namespace Stackable.Snippet

def blanks (n : Nat) : String := "".pushn ' ' n

def padLeft (width : Nat) (text : String) : String := blanks (width - text.length) ++ text

/-! ## Underlines -/

/-- A label on its first line: it covers the columns from `start` up to and without `stop`. -/
structure Underline where
  start : Nat
  stop : Nat
  style : LabelStyle
  message : Option String
deriving Repr, DecidableEq

structure MarkedLine where
  number : Nat
  text : List Char
  underlines : List Underline

def lineText (lines : LineMap) (number : Nat) : List Char := (lines.lineText? number).getD []

/-- A label that ends on another line covers the rest of its first line, and every label covers
the column at which it starts. -/
def underlineBetween (lines : LineMap) (label : Label) (start stop : Position) : Underline :=
  let column :=
    if stop.line = start.line then stop.column else Text.byteSize (lineText lines start.line) + 1
  ⟨start.column, max column (start.column + 1), label.style, label.message⟩

def underlineOf (lines : LineMap) (label : Label) : Underline :=
  underlineBetween lines label (lines.position label.span.start) (lines.position label.span.stop)

def lineOf (lines : LineMap) (label : Label) : Nat := (lines.position label.span.start).line

def markedLines (lines : LineMap) (labels : List Label) : List MarkedLine :=
  let numbers := ((labels.map (lineOf lines)).mergeSort fun a b => decide (a ≤ b)).eraseReps
  numbers.map fun number =>
    ⟨number, lineText lines number,
      (labels.filter (lineOf lines · == number)).map (underlineOf lines)⟩

def mark : LabelStyle → Char
  | .primary => '^'
  | .secondary => '-'

def priority : LabelStyle → Nat
  | .primary => 0
  | .secondary => 1

/-- Primary labels come first, and labels of one style from left to right. -/
def comesFirst (a b : Underline) : Bool :=
  decide (priority a.style < priority b.style ∨
    (priority a.style = priority b.style ∧ a.start ≤ b.start))

/-- Marks the columns that an underline covers and that are still blank. -/
def draw (row : List Char) (a : Underline) : List Char :=
  row.mapIdx fun i c => if c = ' ' ∧ a.start ≤ i + 1 ∧ i + 1 < a.stop then mark a.style else c

def underlineRow (line : MarkedLine) : List Char :=
  (line.underlines.mergeSort comesFirst).foldl draw
    (List.replicate (Text.byteSize line.text + 10) ' ')

def trimRight (row : List Char) : List Char := (row.reverse.dropWhile (· == ' ')).reverse

def paintRun (run : List Char) : Styled :=
  let text := String.ofList run
  match run.head? with
  | some '^' => .boldColored .yellow text
  | some '-' => .colored .blue text
  | _ => .plain text

def paintRow (row : List Char) : List Styled := (row.splitBy (· == ·)).map paintRun

/-! ## Messages -/

structure Message where
  column : Nat
  style : LabelStyle
  text : String

def Message.styled (m : Message) : Styled :=
  match m.style with
  | .primary => .boldColored .yellow m.text
  | .secondary => .colored .blue m.text

def messages (line : MarkedLine) : List Message :=
  ((line.underlines.mergeSort comesFirst).filterMap fun a =>
    a.message.map fun text => ⟨a.start, a.style, text⟩).mergeSort
      fun a b => decide (a.column ≤ b.column)

/-- Strokes at the given columns; the row has reached column `reached`. -/
def strokes (reached : Nat) : List Nat → List Char
  | [] => []
  | column :: rest => List.replicate (column - reached) ' ' ++ '|' :: strokes (column + 1) rest

def margin (width : Nat) : List Styled := [.plain (blanks (width + 1) ++ " "), .colored .blue "|"]

def newline : Styled := .plain "\n"

def strokeRow (width : Nat) (hanging : List Message) : List Styled :=
  margin width ++
    [.plain " ", .colored .blue (String.ofList (strokes 1 (hanging.map (·.column)))), newline]

/-- A message below its label, behind the strokes of those that hang further to the left. -/
def hangingRow (width : Nat) (left : List Message) (m : Message) : List Styled :=
  let before := strokes 1 (left.map (·.column))
  margin width ++ [.plain " ", .colored .blue (String.ofList before),
    .plain (blanks (m.column - 1 - before.length)), m.styled, newline]

def hangingRows (width : Nat) (hanging : List Message) : List Styled :=
  if hanging.isEmpty then []
  else
    strokeRow width hanging ++
      hanging.zipIdx.reverse.flatMap fun (m, i) => hangingRow width (hanging.take i) m

def inlineMessage (ms : List Message) : List Styled :=
  match ms.getLast? with
  | some m => [.plain " ", m.styled]
  | none => []

def rowsBelow (width : Nat) (line : MarkedLine) : List Styled :=
  let row := trimRight (underlineRow line)
  let ms := messages line
  if row.isEmpty then []
  else
    margin width ++ .plain " " :: paintRow row ++ inlineMessage ms ++
      newline :: hangingRows width ms.dropLast

/-! ## Rows -/

def numberedLine (width number : Nat) (text : List Styled) : List Styled :=
  [.boldColored .blue (padLeft (width + 1) (toString number)), .plain " ", .colored .blue "|",
    .plain " "] ++ text ++ [newline]

/-- What stands between a marked line and the one above: a mark where lines are left out. -/
def gap (width : Nat) (above : Option Nat) (number : Nat) : List Styled :=
  match above with
  | none => margin width ++ [newline]
  | some n =>
    if n + 1 < number then [.plain (blanks width ++ " "), .colored .blue "...", newline] else []

def markedLine (width : Nat) (line : MarkedLine) : List Styled :=
  numberedLine width line.number [.plain (String.ofList line.text)]

def lineRows (width : Nat) : Option Nat → List MarkedLine → List Styled
  | _, [] => []
  | above, line :: rest =>
    gap width above line.number ++ markedLine width line ++ rowsBelow width line ++
      lineRows width (some line.number) rest

def severityStyled : Severity → Styled
  | .error => .boldColored .red "error"
  | .warning => .boldColored .yellow "warning"
  | .note => .boldColored .blue "note"

def header (d : Diagnostic) : List Styled :=
  let code := match d.code with
    | some code => [.plain "[", .bold code, .plain "]"]
    | none => []
  severityStyled d.severity :: code ++ [.plain ": ", .bold d.message, newline]

def footerWidth : Nat := 2

def remark (kind text : String) : List Styled :=
  [.plain (blanks (footerWidth + 1) ++ " "), .colored .cyan "=", .plain " ", .boldColored .cyan kind,
    .plain (": " ++ text ++ "\n")]

def suggestionRows (lines : LineMap) (s : Suggestion) (p : Position) : List Styled :=
  match (lines.lineText? p.line).bind fun line => (s.around? p.column line) with
  | some (before, after) =>
    let waves := "".pushn '~' s.replacement.length
    margin footerWidth ++ newline ::
      numberedLine footerWidth p.line
        [.plain (String.ofList before), .colored .green s.replacement, .plain (String.ofList after)] ++
      margin footerWidth ++
      [.plain (" " ++ blanks (Text.byteSize before)), .colored .green waves, newline]
  | none => []

def footer (lines : LineMap) (d : Diagnostic) : List Styled :=
  let help := match d.help with
    | some h =>
      remark "help" h.message ++
        match h.suggestion with
        | some s => suggestionRows lines s (lines.position s.span.start)
        | none => []
    | none => []
  d.notes.flatMap (remark "note") ++ help

def arrow (file : Option String) (p : Position) : List Styled :=
  [.plain "  ", .colored .blue "-->",
    .plain (" " ++ file.getD "<source>" ++ ":" ++ toString p.line ++ ":" ++ toString p.column ++ "\n")]

def marginWidth (marked : List MarkedLine) : Nat :=
  max (toString (((marked.getLast?).map (·.number)).getD 1)).length 2

def closing (width : Nat) (d : Diagnostic) : List Styled :=
  if d.notes.isEmpty && d.help.isNone then [] else margin width ++ [newline]

def body (lines : LineMap) (file : Option String) (d : Diagnostic) (primary : Span) : List Styled :=
  let marked := markedLines lines d.labels
  arrow file (lines.position primary.start) ++ lineRows (marginWidth marked) none marked ++
    closing (marginWidth marked) d

def format (lines : LineMap) (file : Option String) (d : Diagnostic) : List Styled :=
  header d ++
    (match d.primarySpan? with
      | some primary => body lines file d primary
      | none => []) ++
    footer lines d

end Stackable.Snippet
