import Stackable.Command.Check

/-!
# What the severity of a rule decides

The severity that the options give a rule is the severity of every finding, and of nothing else:
the errors of a source, its findings and their order do not depend on it. A report and a summary
count findings by their severity, each in its own way. The report takes a finding of severity
`error` for an error, and the summary takes it neither for an error nor for a warning.
-/

set_option autoImplicit false

namespace Stackable

def Finding.withSeverity (f : Finding) (s : Severity) : Finding := { f with severity := s }

def FileReport.withSeverity (r : FileReport) (s : Severity) : FileReport :=
  { r with findings := r.findings.map (·.withSeverity s) }

def CheckedFile.withSeverity (f : CheckedFile) (s : Severity) : CheckedFile :=
  { f with report := f.report.withSeverity s }

def CheckResult.withSeverity (r : CheckResult) (s : Severity) : CheckResult :=
  { r with checked := r.checked.map (·.withSeverity s) }

/-- All candidates are warnings, or none is. -/
def Summary.withSeverity (m : Summary) (s : Severity) : Summary :=
  { m with warnings := if s = .warning then m.candidates else 0 }

namespace Analysis

variable (a : Analysis) (s : Severity)

theorem report_severity (site : Site) :
    { a with severity := s }.report site = (a.report site).map (·.withSeverity s) := by
  unfold report
  rw [Option.map_map]
  rfl

theorem findingAt?_severity (e : Expr) :
    { a with severity := s }.findingAt? e = (a.findingAt? e).map (·.withSeverity s) := by
  unfold findingAt?
  rw [apply_ite (Option.map _), Option.map_none, Option.map_bind]
  congr 2
  funext site
  rw [Function.comp_apply, apply_ite (Option.map _), Option.map_none, ← report_severity]
  rfl

/-- Findings are sorted by their places, whatever their severity. -/
theorem findings_severity :
    { a with severity := s }.findings = a.findings.map (·.withSeverity s) := by
  have hAt : { a with severity := s }.findingAt? =
      fun e => (a.findingAt? e).map (·.withSeverity s) :=
    funext (findingAt?_severity a s)
  have hSort (l : List Finding) :
      (l.mergeSort fun x y => decide (x.span.start ≤ y.span.start)).map (·.withSeverity s) =
        (l.map (·.withSeverity s)).mergeSort fun x y => decide (x.span.start ≤ y.span.start) :=
    List.map_mergeSort fun _ _ _ _ => rfl
  unfold findings
  rw [hAt, hSort, List.map_filterMap]

end Analysis

section Options

variable (source : List Char) (file : String) (o : Options) (table : List (String × Severity))

theorem findingsInUnit_severity (unit : CompilationUnit) :
    findingsInUnit source unit { o with severity := table } =
      (findingsInUnit source unit o).map
        (·.withSeverity ({ o with severity := table }.severityFor .smallArrayOnStack)) := by
  unfold findingsInUnit
  rw [apply_ite (List.map _), ← Analysis.findings_severity, List.map_nil]
  rfl

/-- The severities in the options change the severities of the findings alone. -/
theorem analyzeSource_severity :
    analyzeSource source file { o with severity := table } =
      (analyzeSource source file o).withSeverity
        ({ o with severity := table }.severityFor .smallArrayOnStack) := by
  unfold analyzeSource FileReport.withSeverity
  dsimp only
  rw [apply_ite (List.map _), ← findingsInUnit_severity, List.map_nil]

theorem severity_of_mem_findings {f : Finding} (hf : f ∈ (analyzeSource source file o).findings) :
    f.severity = o.severityFor .smallArrayOnStack := by
  have hSame := analyzeSource_severity source file o o.severity
  rw [hSame] at hf
  obtain ⟨g, _, rfl⟩ := List.mem_map.mp hf
  rfl

end Options

/-- What is all of one severity counts as a whole or not at all. -/
theorem length_filter_severity {α : Type} {severity : α → Severity} {l : List α} {s : Severity}
    (h : ∀ a ∈ l, severity a = s) (t : Severity) :
    (l.filter fun a => severity a == t).length = if s = t then l.length else 0 := by
  split
  next hEq =>
    rw [List.filter_eq_self.mpr]
    intro a ha
    rw [h a ha, hEq, beq_self_eq_true]
  next hNe =>
    rw [List.length_eq_zero_iff, List.filter_eq_nil_iff]
    intro a ha
    rw [h a ha, beq_iff_eq]
    exact hNe

theorem severity_errorDiagnostic (message : String) (code : ErrorCode) (span : Span)
    (label : String) (hint : Option String) :
    (errorDiagnostic message code span label hint).severity = .error := by
  unfold errorDiagnostic
  cases hint <;> rfl

theorem Finding.severity_diagnostic (f : Finding) : f.diagnostic.severity = f.severity := by
  unfold diagnostic
  cases f.replacement? <;> rfl

/-- Of the diagnostics of a file all errors are of severity `error`, and the findings are of their
own. -/
theorem FileReport.length_filter_diagnostics (r : FileReport) (s : Severity) :
    (r.diagnostics.filter (·.severity == s)).length =
      (if s = .error then r.errorCount else 0) + (r.findings.filter (·.severity == s)).length := by
  have hErrors : ∀ d ∈ r.lexErrors.map LexError.diagnostic ++
      r.parseErrors.map ParseError.diagnostic, d.severity = .error := by
    intro d hd
    rcases List.mem_append.mp hd with hd | hd
    · obtain ⟨e, _, rfl⟩ := List.mem_map.mp hd
      exact severity_errorDiagnostic ..
    · obtain ⟨e, _, rfl⟩ := List.mem_map.mp hd
      exact severity_errorDiagnostic ..
  unfold diagnostics errorCount
  rw [List.filter_append, List.length_append, length_filter_severity hErrors, List.length_append,
    List.length_map, List.length_map, List.filter_map, List.length_map]
  simp only [Function.comp_def, Finding.severity_diagnostic, eq_comm]

/-- The report of a file counts its warnings as the analysis does, and its errors together with the
findings of severity `error`. So the two agree on the errors, and on whether there are any, exactly
if the rule is not of severity `error` or has found nothing. -/
theorem report_counts_errors_iff (source : List Char) (file : String) (o : Options) :
    let f : CheckedFile := ⟨file, source, analyzeSource source file o⟩
    let r := Report.ofDiagnostics (.ofSource f.source) f.path f.diagnostics
    r.warningCount = f.report.warningCount ∧
    r.errorCount = f.report.errorCount + (f.report.findings.filter (·.severity == .error)).length ∧
    (r.success = true ↔ f.report.lexErrors = [] ∧ f.report.parseErrors = [] ∧
      ∀ x ∈ f.report.findings, x.severity ≠ .error) ∧
    (((r.success = true ↔ f.report.lexErrors = [] ∧ f.report.parseErrors = []) ∧
        r.errorCount = f.report.lexErrors.length + f.report.parseErrors.length) ↔
      (o.severityFor .smallArrayOnStack = .error → f.report.findings = [])) := by
  intro f r
  have hWarnings : r.warningCount = f.report.warningCount := by
    have hCount := f.report.length_filter_diagnostics .warning
    rw [if_neg (by decide), Nat.zero_add] at hCount
    exact hCount
  have hErrors : r.errorCount =
      f.report.errorCount + (f.report.findings.filter (·.severity == .error)).length := by
    have hCount := f.report.length_filter_diagnostics .error
    rw [if_pos rfl] at hCount
    exact hCount
  have hSuccess : r.success = true ↔ r.errorCount = 0 := beq_iff_eq
  have hFound : (f.report.findings.filter (·.severity == .error)).length =
      if o.severityFor .smallArrayOnStack = .error then f.report.findings.length else 0 :=
    length_filter_severity (fun _ hf => severity_of_mem_findings source file o hf) .error
  have hFree : (f.report.findings.filter (·.severity == .error)).length = 0 ↔
      (o.severityFor .smallArrayOnStack = .error → f.report.findings = []) := by
    rw [hFound]
    split
    next hError => rw [List.length_eq_zero_iff, forall_prop_of_true hError]
    next hOther => simp [hOther]
  have hNone : f.report.errorCount = 0 ↔ f.report.lexErrors = [] ∧ f.report.parseErrors = [] := by
    rw [FileReport.errorCount, Nat.add_eq_zero_iff, List.length_eq_zero_iff,
      List.length_eq_zero_iff]
  refine ⟨hWarnings, hErrors, ?_, ?_⟩
  · rw [hSuccess, hErrors, Nat.add_eq_zero_iff, hNone, and_assoc, List.length_eq_zero_iff,
      List.filter_eq_nil_iff]
    simp only [beq_iff_eq, ne_eq]
  · rw [← hFree, hSuccess, ← hNone, hErrors, FileReport.errorCount]
    omega

/-- One finding, reported as an error, and the report says that the source has an error. -/
theorem exists_report_error_of_finding :
    let o : Options := ⟨true, [], [], [("perf/small-array-on-stack", .error)]⟩
    let source := "class C{void M(){var b=new byte[3];b[0]=1;}}".toList
    let f : CheckedFile := ⟨"input.cs", source, analyzeSource source "input.cs" o⟩
    let r := Report.ofDiagnostics (.ofSource f.source) f.path f.diagnostics
    f.report.lexErrors.length + f.report.parseErrors.length = 0 ∧
      r.success = false ∧ r.errorCount = 1 := by
  decide +kernel

/-! ## Exit codes -/

/-- From the mildest severity to the strictest. -/
def Severity.level : Severity → Nat
  | .note => 0
  | .warning => 1
  | .error => 2

/-- The configurations differ in severities alone, and the rule is taken at least as seriously in
the second one. -/
structure Config.Raises (c c' : Config) (rule : Rule) : Prop where
  rest : c' = { c with severity := c'.severity }
  level : (c.options.severityFor rule).level ≤ (c'.options.severityFor rule).level

theorem CheckArgs.options_severity (args : CheckArgs) (c : Config)
    (table : List (String × Severity)) : args.options { c with severity := table } =
      (args.options c).map fun o => { o with severity := table } := by
  unfold options
  cases unknownPattern? (args.select ++ args.exclude) <;> rfl

theorem CheckArgs.severity_of_options {args : CheckArgs} {c : Config} {o : Options}
    (h : args.options c = .ok o) : o.severity = c.severity := by
  unfold options at h
  split at h
  · cases h
  · cases h
    rfl

namespace CheckResult

variable (r : CheckResult) (s : Severity)

theorem total_withSeverity (number : FileReport → Nat) :
    (r.withSeverity s).total number = r.total fun f => number (f.withSeverity s) := by
  unfold total withSeverity
  rw [List.foldr_map]
  rfl

theorem total_zero : (r.total fun _ => 0) = 0 := by
  unfold total
  induction r.checked with
  | nil => rfl
  | cons f rest ih => rw [List.foldr_cons, ih]

theorem summary_withSeverity :
    Summary.ofResult (r.withSeverity s) = (Summary.ofResult r).withSeverity s := by
  have hFound (f : FileReport) : (f.withSeverity s).findings.length = f.findings.length :=
    List.length_map _
  have hWarnings (f : FileReport) : (f.withSeverity s).warningCount =
      if s = .warning then f.findings.length else 0 := by
    have hAll : ∀ x ∈ (f.withSeverity s).findings, x.severity = s := by
      intro x hx
      obtain ⟨y, _, rfl⟩ := List.mem_map.mp hx
      rfl
    rw [FileReport.warningCount, length_filter_severity hAll, hFound]
  have hTotal : (r.total fun f => if s = .warning then f.findings.length else 0) =
      if s = .warning then r.total fun f => f.findings.length else 0 := by
    split
    · rfl
    · exact r.total_zero
  have hFiles : (r.withSeverity s).checked.length = r.checked.length := List.length_map _
  unfold Summary.ofResult Summary.withSeverity
  rw [total_withSeverity, total_withSeverity, total_withSeverity, hFiles]
  simp only [hFound, hWarnings, hTotal]
  rfl

end CheckResult

namespace Check

variable (o : Options) (table : List (String × Severity))

theorem addFile_severity (file : String × Except AccessError (List Char)) (r : CheckResult) :
    addFile { o with severity := table } file
        (r.withSeverity ({ o with severity := table }.severityFor .smallArrayOnStack)) =
      (addFile o file r).withSeverity
        ({ o with severity := table }.severityFor .smallArrayOnStack) := by
  obtain ⟨path, cause | source⟩ := file
  · rfl
  · dsimp only [addFile]
    rw [analyzeSource_severity]
    rfl

/-- The severities in the options change the severities of the findings alone, in whatever files. -/
theorem files_severity (fs : List (String × Except AccessError (List Char))) :
    files { o with severity := table } fs =
      (files o fs).withSeverity ({ o with severity := table }.severityFor .smallArrayOnStack) := by
  unfold files
  induction fs with
  | nil => rfl
  | cons file fs ih => rw [List.foldr_cons, ih, addFile_severity, List.foldr_cons]

theorem summary_severity (fs : List (String × Except AccessError (List Char))) :
    Summary.ofResult (files { o with severity := table } fs) =
      (Summary.ofResult (files o fs)).withSeverity
        ({ o with severity := table }.severityFor .smallArrayOnStack) := by
  rw [files_severity, CheckResult.summary_withSeverity]

end Check

namespace Summary

variable (m : Summary) (args : CheckArgs)

theorem exitCode_eq_one_iff : m.exitCode args = 1 ↔
    0 < m.errors ∧ args.exitZero = false ∨ 0 < m.warnings ∧ args.denyWarnings = true := by
  unfold exitCode
  split
  next hErrors => simp [hErrors]
  next hErrors =>
    split
    next hWarnings => simp [hWarnings]
    next hWarnings => simp [hErrors, hWarnings]

theorem exitCode_eq_zero_iff : m.exitCode args = 0 ↔ ¬m.exitCode args = 1 := by
  unfold exitCode
  split
  · decide
  · split <;> decide

theorem exitCode_withSeverity_iff (s : Severity) : (m.withSeverity s).exitCode args = 1 ↔
    0 < m.errors ∧ args.exitZero = false ∨
      s = .warning ∧ 0 < m.candidates ∧ args.denyWarnings = true := by
  rw [exitCode_eq_one_iff]
  unfold withSeverity
  dsimp only
  split
  next h => simp [h]
  next h => simp [h]

/-- Of two severities the stricter one lets a run pass that fails under the other exactly if the
run fails for its warnings alone, and the candidates are no warnings any more. -/
theorem exitCode_falls_iff {s s' : Severity} (h : s.level ≤ s'.level) :
    (m.withSeverity s).exitCode args = 1 ∧ (m.withSeverity s').exitCode args = 0 ↔
      s = .warning ∧ s' = .error ∧ 0 < m.candidates ∧ args.denyWarnings = true ∧
        (m.errors = 0 ∨ args.exitZero = true) := by
  have hErrors : ¬(0 < m.errors ∧ args.exitZero = false) ↔ m.errors = 0 ∨ args.exitZero = true := by
    rw [Decidable.not_and_iff_not_or_not, Nat.not_lt, Nat.le_zero, Bool.not_eq_false]
  have hStricter : s = .warning → (s' = .error ↔ s' ≠ .warning) := by
    rintro rfl
    cases s' with
    | note => exact absurd h (by decide)
    | warning | error => decide
  rw [exitCode_eq_zero_iff, exitCode_withSeverity_iff, exitCode_withSeverity_iff, ← hErrors]
  constructor
  · rintro ⟨hBefore, hAfter⟩
    obtain ⟨hFree, hNoWarnings⟩ := not_or.mp hAfter
    obtain ⟨rfl, hFound, hDeny⟩ := hBefore.resolve_left hFree
    exact ⟨rfl, (hStricter rfl).mpr fun hs => hNoWarnings ⟨hs, hFound, hDeny⟩, hFound, hDeny, hFree⟩
  · rintro ⟨rfl, rfl, hFound, hDeny, hFree⟩
    exact ⟨.inr ⟨rfl, hFound, hDeny⟩, not_or.mpr ⟨hFree, fun hs => nomatch hs.1⟩⟩

end Summary

/-- Taking a rule more seriously turns a failing run into a passing one exactly if its findings
were the warnings that made the run fail, and are errors now. -/
theorem exitCode_falls_by_error_iff {c c' : Config} {rule : Rule} (hRule : rule ∈ Rule.all)
    (h : c.Raises c' rule) (args : CheckArgs)
    (fs : List (String × Except AccessError (List Char))) :
    (∃ e, args.options c = .error e ∧ args.options c' = .error e) ∨
    ∃ o o', args.options c = .ok o ∧ args.options c' = .ok o' ∧
      let m := Summary.ofResult (Check.files o fs)
      let m' := Summary.ofResult (Check.files o' fs)
      m'.files = m.files ∧ m'.candidates = m.candidates ∧ m'.errors = m.errors ∧
      (m.exitCode args = 1 ∧ m'.exitCode args = 0 ↔
        c.options.severityFor rule = .warning ∧ c'.options.severityFor rule = .error ∧
        0 < m.candidates ∧ args.denyWarnings = true ∧ (m.errors = 0 ∨ args.exitZero = true)) := by
  obtain rfl : rule = .smallArrayOnStack := List.mem_singleton.mp hRule
  obtain ⟨hRest, hLevel⟩ := h
  have hOptions := args.options_severity c c'.severity
  rw [← hRest] at hOptions
  cases hResolved : args.options c with
  | error e =>
    rw [hResolved] at hOptions
    exact .inl ⟨e, rfl, hOptions⟩
  | ok o =>
    rw [hResolved] at hOptions
    have hSeverity := CheckArgs.severity_of_options hResolved
    have hBefore : Summary.ofResult (Check.files o fs) =
        (Summary.ofResult (Check.files o fs)).withSeverity
          (c.options.severityFor .smallArrayOnStack) := by
      have hSame := Check.summary_severity o c.severity fs
      rw [← hSeverity] at hSame
      rw [Config.options, ← hSeverity]
      exact hSame
    have hAfter := Check.summary_severity o c'.severity fs
    refine .inr ⟨o, _, rfl, hOptions, ?_⟩
    dsimp only
    rw [hAfter]
    refine ⟨rfl, rfl, rfl, ?_⟩
    have hFalls := (Summary.ofResult (Check.files o fs)).exitCode_falls_iff args hLevel
    rw [← hBefore] at hFalls
    exact hFalls

/-- One file with one candidate. -/
def candidateFile : List (String × Except AccessError (List Char)) :=
  [("a.cs", .ok "class C{void M(){var b=new byte[3];b[0]=1;}}".toList)]

/-- `check --unsafe --deny-warnings a.cs` -/
def denyingWarnings : CheckArgs := ⟨["a.cs"], .human, true, false, [], [], false, true⟩

def severityError : Config := { severity := [("perf/small-array-on-stack", .error)] }

theorem raises_severityError : Config.Raises {} severityError .smallArrayOnStack := ⟨rfl, by decide⟩

theorem exitCode_falls_by_candidate :
    Rule.smallArrayOnStack ∈ Rule.all ∧ Config.Raises {} severityError .smallArrayOnStack ∧
    ∃ o o', denyingWarnings.options {} = .ok o ∧ denyingWarnings.options severityError = .ok o' ∧
      (Summary.ofResult (Check.files o candidateFile)).exitCode denyingWarnings = 1 ∧
      (Summary.ofResult (Check.files o' candidateFile)).exitCode denyingWarnings = 0 := by
  have hRule : Rule.smallArrayOnStack ∈ Rule.all := List.mem_singleton_self _
  refine ⟨hRule, raises_severityError, ?_⟩
  have hOk : denyingWarnings.options {} = .ok { allowUnsafe := true } := rfl
  rcases exitCode_falls_by_error_iff hRule raises_severityError denyingWarnings candidateFile with
    ⟨e, he, _⟩ | ⟨o, o', ho, ho', _, _, _, hFalls⟩
  · cases hOk.symm.trans he
  · obtain rfl : o = { allowUnsafe := true } := by
      rw [hOk] at ho
      exact (Except.ok.inj ho).symm
    exact ⟨_, o', ho, ho', hFalls.mpr (by decide +kernel)⟩

/-- With the severity `error` in place of `warning` the candidate lets the run pass. -/
theorem exists_exitCode_lower :
    Config.Raises {} severityError .smallArrayOnStack ∧
    ((denyingWarnings.options {}).map fun o =>
        (Summary.ofResult (Check.files o candidateFile)).exitCode denyingWarnings) = .ok 1 ∧
    ((denyingWarnings.options severityError).map fun o =>
        (Summary.ofResult (Check.files o candidateFile)).exitCode denyingWarnings) = .ok 0 := by
  refine ⟨raises_severityError, ?_, ?_⟩
  · have hOk : denyingWarnings.options {} = .ok { allowUnsafe := true } := rfl
    have hCode : (Summary.ofResult (Check.files { allowUnsafe := true } candidateFile)).exitCode
        denyingWarnings = 1 := by decide +kernel
    rw [hOk]
    exact congrArg Except.ok hCode
  · have hOk : denyingWarnings.options severityError =
        .ok ⟨true, [], [], [("perf/small-array-on-stack", .error)]⟩ := rfl
    have hCode : (Summary.ofResult (Check.files
        ⟨true, [], [], [("perf/small-array-on-stack", .error)]⟩ candidateFile)).exitCode
        denyingWarnings = 0 := by decide +kernel
    rw [hOk]
    exact congrArg Except.ok hCode

end Stackable
