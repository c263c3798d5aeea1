import Stackable.Analysis
import Stackable.Diagnostic.Basic
import Stackable.Diagnostic.Code

/-!
# Diagnostics of errors and findings
-/

set_option autoImplicit false

namespace Stackable

def errorDiagnostic (message : String) (code : ErrorCode) (span : Span) (label : String)
    (hint : Option String) : Diagnostic :=
  let d := (({ severity := .error, message } : Diagnostic).withCode code.text).withPrimary span (some label)
  match hint with
  | some hint => d.withHelp hint
  | none => d

def LexError.label (e : LexError) : String :=
  match e.cause with
  | .unexpectedCharacter _ => "unexpected character"
  | .unterminatedString => "string starts here"
  | .invalidEscape => "invalid escape"
  | .invalidNumber => "invalid literal"

def LexError.diagnostic (e : LexError) : Diagnostic :=
  errorDiagnostic e.message e.code e.span e.label e.hint

def ParseError.diagnostic (e : ParseError) : Diagnostic :=
  errorDiagnostic e.message e.code e.span "here" e.hint

def Finding.replacement? (f : Finding) : Option String :=
  match f.allocation.toList with
  | 'n' :: 'e' :: 'w' :: rest => some (String.ofList ("stackalloc".toList ++ rest))
  | _ => none

def Finding.diagnostic (f : Finding) : Diagnostic :=
  let d : Diagnostic := { severity := f.severity, message := f.message }
  let d := (d.withCode f.rule).withPrimary f.span (some "reported here")
  let d := (d.withSecondary f.allocationSpan (some "allocated on the heap")).withHelp f.fix
  match f.replacement? with
  | some text => d.withSuggestion f.allocationSpan text
  | none => d

/-- Lexical errors, then errors of grammar, then findings. -/
def FileReport.diagnostics (r : FileReport) : List Diagnostic :=
  r.lexErrors.map LexError.diagnostic ++ r.parseErrors.map ParseError.diagnostic ++
    r.findings.map Finding.diagnostic

end Stackable
