import Stackable.Diagnostic.Basic
import Stackable.Diagnostic.Code
import Stackable.Text.Json

/-!
# Diagnostics for other programs

The diagnostics of a file with lines and columns in place of offsets, the lines of source they
are reported on, and the line that a suggestion leads to. Columns count UTF-16 code units.
-/

set_option autoImplicit false

namespace Stackable

structure Place where
  line : Nat
  column : Nat
  offset : Nat
deriving Repr, DecidableEq

structure ReportLabel where
  role : LabelStyle
  message : Option String
  start : Place
  stop : Place
deriving Repr, DecidableEq

structure ReportSuggestion where
  span : Span
  replacement : String
  resultLine : String
deriving Repr, DecidableEq

structure ReportEntry where
  severity : Severity
  code : Option String
  category : Option Category
  message : String
  location : Option (Place × String)
  labels : List ReportLabel
  notes : List String
  help : Option String
  suggestion : Option ReportSuggestion
deriving Repr, DecidableEq

structure Report where
  file : String
  /-- No diagnostic is an error. -/
  success : Bool
  entries : List ReportEntry
  errorCount : Nat
  warningCount : Nat
deriving Repr, DecidableEq

namespace Report

def place (lines : LineMap) (offset : Nat) : Place :=
  let p := lines.editorPosition offset
  ⟨p.line, p.column, offset⟩

def lineText (lines : LineMap) (line : Nat) : List Char := (lines.lineText? line).getD []

def resultLine (lines : LineMap) (s : Suggestion) : List Char :=
  let p := lines.position s.span.start
  let line := lineText lines p.line
  match s.around? p.column line with
  | some (before, after) => before ++ s.replacement.toList ++ after
  | none => line

def entry (lines : LineMap) (d : Diagnostic) : ReportEntry where
  severity := d.severity
  code := d.code
  category := d.code.bind Category.ofCode?
  message := d.message
  location := d.primarySpan?.map fun span =>
    let here := place lines span.start
    (here, String.ofList (lineText lines here.line))
  labels := d.labels.map fun l => ⟨l.style, l.message, place lines l.span.start, place lines l.span.stop⟩
  notes := d.notes
  help := d.help.map (·.message)
  suggestion := (d.help.bind (·.suggestion)).map fun s =>
    ⟨s.span, s.replacement, String.ofList (resultLine lines s)⟩

def ofDiagnostics (lines : LineMap) (file : String) (diagnostics : List Diagnostic) : Report :=
  let count := fun severity : Severity => (diagnostics.filter (·.severity == severity)).length
  ⟨file, count .error == 0, diagnostics.map (entry lines), count .error, count .warning⟩

/-! ## As values -/

open JsonValue (optional)

def spanValue (s : Span) : JsonValue := .object [("start", .number s.start), ("end", .number s.stop)]

def placeMembers (p : Place) : List (String × JsonValue) :=
  [("line", .number p.line), ("column", .number p.column), ("byte_offset", .number p.offset)]

def labelValue (l : ReportLabel) : JsonValue :=
  .object (("role", .string l.role.text) :: optional "message" .string l.message ++
    [("start", .object (placeMembers l.start)), ("end", .object (placeMembers l.stop))])

def suggestionValue (s : ReportSuggestion) : JsonValue :=
  .object [("span", spanValue s.span), ("replacement", .string s.replacement),
    ("result_line", .string s.resultLine)]

/-- What is absent is left out, and so are notes if there are none. -/
def entryValue (e : ReportEntry) : JsonValue :=
  .object ([("severity", .string e.severity.text)] ++ optional "code" .string e.code ++
    optional "category" (fun c => .string c.text) e.category ++ [("message", .string e.message)] ++
    optional "location" (fun l => .object (placeMembers l.1 ++ [("source_line", .string l.2)])) e.location ++
    [("labels", .array (e.labels.map labelValue))] ++
    (if e.notes.isEmpty then [] else [("notes", .array (e.notes.map .string))]) ++
    optional "help" .string e.help ++ optional "suggestion" suggestionValue e.suggestion)

def value (r : Report) : JsonValue :=
  .object [("version", .number 1), ("file", .string r.file), ("success", .bool r.success),
    ("diagnostics", .array (r.entries.map entryValue)), ("error_count", .number r.errorCount),
    ("warning_count", .number r.warningCount)]

end Report

end Stackable
