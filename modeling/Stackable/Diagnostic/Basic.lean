import Stackable.Rule.Basic
import Stackable.Source.Span

/-!
# Diagnostics

What is shown to the user: a message about some places of a source, with notes and help.
-/

set_option autoImplicit false

namespace Stackable

inductive LabelStyle where
  | primary
  | secondary
deriving Repr, DecidableEq

def LabelStyle.text : LabelStyle → String
  | .primary => "primary"
  | .secondary => "secondary"

structure Label where
  span : Span
  style : LabelStyle
  message : Option String
deriving Repr, DecidableEq

structure Suggestion where
  span : Span
  replacement : String
deriving Repr, DecidableEq

structure Help where
  message : String
  suggestion : Option Suggestion
deriving Repr, DecidableEq

structure Diagnostic where
  severity : Severity
  /-- The code of an error, or the name of a rule. -/
  code : Option String := none
  message : String
  labels : List Label := []
  notes : List String := []
  help : Option Help := none
deriving Repr, DecidableEq

namespace Diagnostic

def withCode (d : Diagnostic) (code : String) : Diagnostic := { d with code := some code }

def withLabel (d : Diagnostic) (label : Label) : Diagnostic := { d with labels := d.labels ++ [label] }

def withPrimary (d : Diagnostic) (span : Span) (message : Option String) : Diagnostic :=
  d.withLabel ⟨span, .primary, message⟩

def withSecondary (d : Diagnostic) (span : Span) (message : Option String) : Diagnostic :=
  d.withLabel ⟨span, .secondary, message⟩

def withNote (d : Diagnostic) (note : String) : Diagnostic := { d with notes := d.notes ++ [note] }

def withHelp (d : Diagnostic) (message : String) : Diagnostic := { d with help := some ⟨message, none⟩ }

/-- A suggestion belongs to the help; without help there is nothing to attach it to. -/
def withSuggestion (d : Diagnostic) (span : Span) (replacement : String) : Diagnostic :=
  { d with help := d.help.map fun h => { h with suggestion := some ⟨span, replacement⟩ } }

/-- The first primary label, or else the first label. -/
def primarySpan? (d : Diagnostic) : Option Span :=
  ((d.labels.find? (·.style == .primary)).or d.labels.head?).map (·.span)

def isError (d : Diagnostic) : Bool := d.severity == .error

end Diagnostic

/-- A line with the text around a replaced part of it: a part that starts at `column`, is as long
as the span of the suggestion and ends with the line at the latest. -/
def Suggestion.around? (s : Suggestion) (column : Nat) (line : List Char) :
    Option (List Char × List Char) := do
  let size := Text.byteSize line
  let start := min (column - 1) size
  let stop := min (start + s.span.length) size
  return (← Text.takeBytes? start line, ← Text.dropBytes? stop line)

end Stackable
