import Stackable.Command.Check

/-!
# What the patterns of rules decide

Patterns come from a configuration and from the command line, and no pattern is accepted that matches
no rule. Those that select and those that exclude rules mean in the end what they match. As the key
of a severity a pattern is accepted too, but only the name of a rule is looked up there: a category
with a star changes no severity.
-/

set_option autoImplicit false

namespace Stackable

/-- The patterns that select rules: those of the command line, or else those of the configuration. -/
def CheckArgs.selection (args : CheckArgs) (c : Config) : List String :=
  if args.select = [] then c.select else args.select

theorem isKnownPattern_iff {pattern : String} :
    isKnownPattern pattern = true ↔ ∃ r ∈ Rule.all, matchesRule r.id pattern = true :=
  List.any_eq_true

theorem unknownPattern?_eq_none_iff {patterns : List String} :
    unknownPattern? patterns = none ↔
      ∀ p ∈ patterns, ∃ r ∈ Rule.all, matchesRule r.id p = true := by
  rw [unknownPattern?, List.find?_eq_none]
  simp only [Bool.not_eq_true', Bool.not_eq_false, isKnownPattern_iff]

/-- Options are settled exactly if the command line has only patterns that match a rule. -/
theorem CheckArgs.options_eq_ok_iff {args : CheckArgs} {c : Config} {o : Options} :
    args.options c = .ok o ↔
      (∀ p ∈ args.select ++ args.exclude, ∃ r ∈ Rule.all, matchesRule r.id p = true) ∧
      o = { allowUnsafe := args.unsafeOverride.getD (c.allowUnsafe.getD false)
            select := args.selection c
            exclude := c.exclude ++ args.exclude
            severity := c.severity } := by
  unfold options
  rw [← unknownPattern?_eq_none_iff]
  cases unknownPattern? (args.select ++ args.exclude) with
  | some pattern => simp
  | none =>
    simp only [Except.ok.injEq, true_and, Config.options, selection, List.isEmpty_iff]
    exact eq_comm

section Options

variable {o : Options}

theorem Options.shouldRun_of_excluded {id pattern : String} (hMem : pattern ∈ o.exclude)
    (hMatch : matchesRule id pattern = true) : o.shouldRun id = false := by
  have hAny : o.exclude.any (matchesRule id) = true := List.any_eq_true.mpr ⟨pattern, hMem, hMatch⟩
  rw [shouldRun, hAny, Bool.not_true, Bool.false_and]

theorem Options.shouldRun_iff {id : String} (h : ∀ p ∈ o.exclude, matchesRule id p = false) :
    o.shouldRun id = true ↔ o.select = [] ∨ ∃ p ∈ o.select, matchesRule id p = true := by
  have hAny : o.exclude.any (matchesRule id) = false := by
    rw [List.any_eq_false]
    exact fun p hp => by rw [h p hp]; exact Bool.false_ne_true
  rw [shouldRun, hAny, Bool.not_false, Bool.true_and, Bool.or_eq_true, List.isEmpty_iff,
    List.any_eq_true]

theorem matchesRule_self (id : String) : matchesRule id id = true := by
  rw [matchesRule, beq_self_eq_true, Bool.true_or]

/-- A look-up by the name of a rule comes to keys that match the rule, if to any. -/
theorem lookup_filter_matchesRule (id : String) (table : List (String × Severity)) :
    (table.filter fun e => matchesRule id e.1).lookup id = table.lookup id := by
  induction table with
  | nil => rfl
  | cons e table ih =>
    obtain ⟨key, s⟩ := e
    by_cases hKey : id = key
    · subst hKey
      rw [List.filter_cons, if_pos (matchesRule_self id), List.lookup_cons_self,
        List.lookup_cons_self]
    · have hNe : (id == key) = false := beq_eq_false_iff_ne.mpr hKey
      rw [List.filter_cons]
      split
      · rw [List.lookup_cons, List.lookup_cons, hNe, ih]
      · rw [List.lookup_cons, hNe, ih]

/-- The only key that matches a rule decides its severity if it is the name of the rule, and is left
aside otherwise. -/
theorem Options.severityFor_eq {r : Rule} {key : String} {s : Severity}
    (h : (o.severity.filter fun e => matchesRule r.id e.1) = [(key, s)]) :
    o.severityFor r = if key = r.id then s else r.severity := by
  rw [severityFor, ← lookup_filter_matchesRule, h, List.lookup_cons]
  by_cases hKey : key = r.id
  · rw [if_pos hKey, hKey, beq_self_eq_true]
    rfl
  · rw [if_neg hKey, beq_eq_false_iff_ne.mpr (Ne.symm hKey)]
    rfl

end Options

/-- Where a configuration and a command line are accepted each of their patterns matches a rule. For a
rule that an exclusion of either matches the rule does not run, and otherwise it runs exactly if the
selection is empty or holds a pattern that matches it. Where only one key of the severities matches a
rule, the rule gets the severity of this key if and only if the key is the name of the rule, or the
severity is its own anyway. -/
theorem patterns_take_effect (c : Config) (args : CheckArgs) (o : Options)
    (hValid : unknownPattern? c.patterns = none) (hOptions : args.options c = .ok o) :
    (∀ p ∈ c.patterns ++ (args.select ++ args.exclude), ∃ r ∈ Rule.all, matchesRule r.id p = true) ∧
    ∀ r ∈ Rule.all,
      ((∃ p ∈ c.exclude ++ args.exclude, matchesRule r.id p = true) → o.shouldRun r.id = false) ∧
      ((∀ p ∈ c.exclude ++ args.exclude, matchesRule r.id p = false) →
        (o.shouldRun r.id = true ↔
          args.selection c = [] ∨ ∃ p ∈ args.selection c, matchesRule r.id p = true)) ∧
      ∀ key s, (c.severity.filter fun e => matchesRule r.id e.1) = [(key, s)] →
        (o.severityFor r = s ↔ key = r.id ∨ s = r.severity) := by
  rw [unknownPattern?_eq_none_iff] at hValid
  obtain ⟨hArgs, rfl⟩ := CheckArgs.options_eq_ok_iff.mp hOptions
  refine ⟨fun p hp => ?_, fun r _ => ⟨?_, ?_, ?_⟩⟩
  · rcases List.mem_append.mp hp with hp | hp
    · exact hValid p hp
    · exact hArgs p hp
  · rintro ⟨p, hp, hMatch⟩
    exact Options.shouldRun_of_excluded hp hMatch
  · exact fun hNone => Options.shouldRun_iff hNone
  · intro key s hKey
    rw [Options.severityFor_eq hKey]
    by_cases hName : key = r.id
    · simp [hName]
    · simp [hName, eq_comm]

/-- A category as the key of a severity is accepted with the rest of the configuration, and the rule
that it matches keeps its own severity. -/
theorem exists_severity_left_aside :
    ∃ (c : Config) (args : CheckArgs) (o : Options) (r : Rule),
      unknownPattern? c.patterns = none ∧ args.options c = .ok o ∧ r ∈ Rule.all ∧
      (c.severity.filter fun e => matchesRule r.id e.1) = [("perf/*", .note)] ∧
      o.severityFor r = .warning := by
  let args : CheckArgs := ⟨["a.cs"], .human, false, false, [], [], false, false⟩
  refine ⟨{ severity := [("perf/*", .note)] }, args, { severity := [("perf/*", .note)] },
    .smallArrayOnStack, ?_, ?_, ?_, ?_, ?_⟩
  · decide
  · rfl
  · exact List.mem_singleton_self _
  · decide
  · decide

/-- A configuration that excludes by category and gives the rule a severity by its name. -/
theorem patterns_take_effect_by_name :
    let c : Config := { exclude := ["perf/*"], severity := [(Rule.smallArrayOnStack.id, .note)] }
    let args : CheckArgs :=
      ⟨["a.cs"], .human, false, false, [Rule.smallArrayOnStack.id], [], false, false⟩
    let o : Options := {
      select := [Rule.smallArrayOnStack.id], exclude := ["perf/*"]
      severity := [(Rule.smallArrayOnStack.id, .note)] }
    (unknownPattern? c.patterns = none ∧ args.options c = .ok o) ∧
      o.shouldRun Rule.smallArrayOnStack.id = false ∧ o.severityFor .smallArrayOnStack = .note := by
  intro c args o
  have hValid : unknownPattern? c.patterns = none := by decide
  have hOptions : args.options c = .ok o := by rfl
  obtain ⟨_, hRule⟩ := patterns_take_effect c args o hValid hOptions
  obtain ⟨hExcluded, _, hSeverity⟩ := hRule .smallArrayOnStack (List.mem_singleton_self _)
  refine ⟨⟨hValid, hOptions⟩, hExcluded ⟨"perf/*", by decide, by decide⟩, ?_⟩
  exact (hSeverity Rule.smallArrayOnStack.id .note (by decide)).mpr (.inl rfl)

end Stackable
