import Stackable.Command.Outcome
import Stackable.CommandLine.Basic
import Stackable.Diagnostic.Convert
import Stackable.Diagnostic.Report
import Stackable.Diagnostic.Snippet
import Stackable.Workspace.Sources

/-!
# Checking files

Collects source files, analyses each of them and reports what was found.
-/

set_option autoImplicit false

namespace Stackable

inductive CheckError where
  | config (e : ConfigError)
  | collect (e : CollectError)
  | noSources
deriving Repr, DecidableEq

def CheckError.message : CheckError → String
  | .config e => e.message
  | .collect e => e.message
  | .noSources => "no .cs files found"

structure CheckedFile where
  path : String
  source : List Char
  report : FileReport

def CheckedFile.diagnostics (f : CheckedFile) : List Diagnostic := f.report.diagnostics

structure ReadFailure where
  path : String
  cause : AccessError
deriving Repr, DecidableEq

structure CheckResult where
  checked : List CheckedFile
  failures : List ReadFailure

structure Summary where
  files : Nat
  candidates : Nat
  warnings : Nat
  /-- Files that could not be read, and errors in those that could. -/
  errors : Nat
deriving Repr, DecidableEq

def CheckResult.total (r : CheckResult) (number : FileReport → Nat) : Nat :=
  r.checked.foldr (fun f n => number f.report + n) 0

def Summary.ofResult (r : CheckResult) : Summary where
  files := r.checked.length + r.failures.length
  candidates := r.total fun f => f.findings.length
  warnings := r.total FileReport.warningCount
  errors := r.failures.length + r.total FileReport.errorCount

def Summary.exitCode (s : Summary) (args : CheckArgs) : Nat :=
  if 0 < s.errors ∧ args.exitZero = false then 1
  else if 0 < s.warnings ∧ args.denyWarnings = true then 1
  else 0

namespace CheckArgs

/-- The options of the configuration with those of the command line. A selection on the command
line takes the place of the configured one, and exclusions add up. -/
def options (args : CheckArgs) (c : Config) : Except ConfigError Options :=
  match unknownPattern? (args.select ++ args.exclude) with
  | some pattern => .error (.unknownRule pattern)
  | none =>
    let o := c.options
    .ok { o with
      allowUnsafe := args.unsafeOverride.getD o.allowUnsafe
      select := if args.select.isEmpty then o.select else args.select
      exclude := o.exclude ++ args.exclude }

end CheckArgs

namespace Check

def addFile (o : Options) (file : String × Except AccessError (List Char)) (r : CheckResult) :
    CheckResult :=
  match file with
  | (path, .ok source) => { r with checked := ⟨path, source, analyzeSource source path o⟩ :: r.checked }
  | (path, .error cause) => { r with failures := ⟨path, cause⟩ :: r.failures }

def files (o : Options) (files : List (String × Except AccessError (List Char))) : CheckResult :=
  files.foldr (addFile o) ⟨[], []⟩

def run (w : Workspace) (c : Config) (args : CheckArgs) : Except CheckError CheckResult := do
  let o ← (args.options c).mapError .config
  let paths ← (Sources.collect w c args.paths).mapError .collect
  if paths.isEmpty then throw .noSources
  return files o (paths.map fun path => (path, w.text path))

def diagnosticLines (file : String) (source : List Char) (diagnostics : List Diagnostic) : List Styled :=
  diagnostics.flatMap fun d => Outcome.line (Snippet.format (.ofSource source) (some file) d)

def summaryLine (s : Summary) : List Styled :=
  Outcome.line
    [.colored .red "✗", .plain " ",
      Outcome.highlighted .yellow s.candidates (Outcome.counted s.candidates "candidate" "candidates"),
      .plain ", ", Outcome.highlighted .red s.errors (Outcome.counted s.errors "error" "errors"),
      .plain (" in " ++ toString s.files ++ " file(s)")]

def clearLine (s : Summary) : List Styled :=
  Outcome.line
    [.colored .green "✓",
      .plain (" No stack allocation candidates in " ++ toString s.files ++ " file(s)")]

def reports (r : CheckResult) : List Report :=
  r.checked.map fun f => Report.ofDiagnostics (.ofSource f.source) f.path f.diagnostics

def outcome (r : CheckResult) (args : CheckArgs) : Outcome :=
  let s := Summary.ofResult r
  let failures := r.failures.flatMap fun f => Outcome.readFailure f.path f.cause
  match args.format with
  | .human =>
    let shown := r.checked.flatMap fun f => diagnosticLines f.path f.source f.diagnostics
    let isClear := s.candidates == 0 && s.errors == 0
    { exitCode := s.exitCode args
      output := if isClear then clearLine s else []
      errors := failures ++ shown ++ if isClear then [] else summaryLine s }
  | .json =>
    { exitCode := s.exitCode args
      output := Outcome.line [.plain (JsonValue.array ((reports r).map Report.value)).write]
      errors := failures }

def command (w : Workspace) (c : Config) (args : CheckArgs) : Outcome :=
  match run w c args with
  | .ok r => outcome r args
  | .error e => { exitCode := 1, errors := Outcome.errorLine e.message }

end Check

end Stackable
