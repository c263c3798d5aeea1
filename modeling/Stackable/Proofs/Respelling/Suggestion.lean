import Stackable.Diagnostic.Convert
import Stackable.Proofs.Respelling.Findings

/-!
# Following a suggestion

Every finding comes with a suggestion, which respells the word that the allocation starts with. The
source in which it is followed reads as before, but that the array is on the stack, and the other
findings remain.
-/

set_option autoImplicit false

namespace Stackable

/-- The source with the replacement in the place of the text under the span. -/
def Suggestion.follow? (s : Suggestion) (source : List Char) : Option (List Char) := do
  let before ← Text.takeBytes? s.span.start source
  let after ← Text.dropBytes? s.span.stop source
  return before ++ s.replacement.toList ++ after

theorem Suggestion.follow?_append (before text after : List Char) (replacement : String) :
    (Suggestion.mk ⟨Text.byteSize before, Text.byteSize (before ++ text)⟩ replacement).follow?
      (before ++ text ++ after) = some (before ++ replacement.toList ++ after) := by
  unfold follow?
  dsimp only
  rw [Text.dropBytes?_append, List.append_assoc, Text.takeBytes?_append]
  rfl

theorem Finding.suggestion_diagnostic (f : Finding) :
    f.diagnostic.help.bind (·.suggestion) = f.replacement?.map (Suggestion.mk f.allocationSpan) := by
  unfold diagnostic
  cases f.replacement? <;> rfl

theorem StackCandidate.exists_edit {source : List Char} {e : Expr}
    (hFree : (parseSource source).2 = []) (h : StackCandidate (parseSource source).1 e) :
    ∃ w : Edit, w.source = source ∧ w.created = e := by
  obtain ⟨v, _, _, rfl, _, _, _, hHolds⟩ := h.exists_respelling
  obtain ⟨_, pre, post, rfl, hWord, hParsed⟩ := parseSource_respelled hFree hHolds
  exact ⟨⟨v, pre, post, hWord, hFree, h, RespelledText.fits_ofSource hFree hHolds, hParsed⟩, rfl, rfl⟩

/-- Of the expressions of a tree the word starts this one alone, an array creation with one size.
Respelled it is a creation on the stack with the same element type, size and elements. -/
structure Respelling.Stacks (v : Respelling) (u : CompilationUnit) : Prop where
  mem : .expr v.created ∈ (SyntaxTree.ofUnit u).walk
  alone : ∀ e, .expr e ∈ (SyntaxTree.ofUnit u).walk → e.span.start = v.word → e = v.created
  stacked : ∃ element size span init,
    v.created.kind = .arrayCreation element [⟨[size], span⟩] init ∧
    (v.expr v.created).kind =
      .stackAlloc (some (v.typeRef element)) (size.map v.expr) (init.map (·.map v.expr))

namespace Edit

variable (w : Edit)

/-- The text of the candidate starts with the word, and `stackalloc` in the place of the word makes
the edit. -/
theorem exists_rest : ∃ rest, w.created.span.text? w.source = some ("new".toList ++ rest) ∧
    (Suggestion.mk w.created.span (String.ofList ("stackalloc".toList ++ rest))).follow? w.source =
      some w.edited := by
  obtain ⟨_, _, start, _, place, hOrdered⟩ := placed_of_mem_source w.candidate.mem_walk
  obtain ⟨_, ⟨front, after, hFront, hStop⟩, _⟩ := place.span.bounds hOrdered
  have hPrefix : w.pre ++ "new".toList <+: w.source := ⟨w.post, List.append_assoc ..⟩
  have hWord : w.pre ++ "new".toList <+: front := by
    apply Text.prefix_of_byteSize_le hPrefix ⟨after, hFront.symm⟩
    rw [Respelling.byteSize_new, ← w.word_eq, ← hStop]
    exact w.word_le_stop
  obtain ⟨rest, rfl⟩ := hWord
  rw [List.append_assoc w.pre] at hStop hFront
  have hSpan : w.created.span =
      ⟨Text.byteSize w.pre, Text.byteSize (w.pre ++ ("new".toList ++ rest))⟩ := by
    rw [← w.word_eq, ← hStop]
    rfl
  have hSource : w.source = w.pre ++ ("new".toList ++ rest) ++ after := hFront
  have hPost : w.post = rest ++ after := by
    rw [List.append_assoc, List.append_assoc, source, List.append_cancel_left_eq,
      List.append_cancel_left_eq] at hSource
    exact hSource
  rw [hSpan, hSource]
  refine ⟨rest, ?_, ?_⟩
  · rw [Span.text?, Text.byteSize_append]
    exact Text.slice?_append ..
  · rw [Suggestion.follow?_append, String.toList_ofList, edited, hPost, List.append_assoc,
      List.append_assoc]

theorem stacks_source : w.Stacks (parseSource w.source).1 := by
  obtain ⟨element, size, span, init, hKind⟩ := w.candidate.exists_dimension
  exact ⟨w.candidate.mem_walk, fun e he h => w.candidate.eq_of_start w.fits.2 he h,
    element, size, span, init, hKind, Respelling.kind_created hKind⟩

end Edit

/-- What the findings in a source depend on. -/
def Analysis.ofSource (source : List Char) (o : Options) : Analysis where
  model := .ofUnit (parseSource source).1
  lines := .ofSource source
  allowUnsafe := o.allowUnsafe
  severity := o.severityFor .smallArrayOnStack

theorem isReadable_iff (source : List Char) (file : String) (o : Options) :
    (analyzeSource source file o).isReadable = true ↔ (parseSource source).2 = [] := by
  unfold FileReport.isReadable analyzeSource parseSource
  simp

theorem findings_analyzeSource (source : List Char) (file : String) (o : Options) :
    (analyzeSource source file o).findings =
      if (parseSource source).2 = [] ∧ o.shouldRun Rule.smallArrayOnStack.id = true then
        (Analysis.ofSource source o).findings
      else [] := by
  have hFindings : (analyzeSource source file o).findings =
      if (analyzeSource source file o).isReadable then
        findingsInUnit source (parseSource source).1 o else [] := rfl
  rw [hFindings, ite_and]
  simp only [isReadable_iff]
  rfl

/-- A finding is about a candidate that can be edited. -/
theorem exists_edit_of_mem_findings {source : List Char} {file : String} {o : Options} {f : Finding}
    (hf : f ∈ (analyzeSource source file o).findings) :
    o.shouldRun Rule.smallArrayOnStack.id = true ∧ o.allowUnsafe = true ∧
      ∃ w : Edit, w.source = source ∧
        (Analysis.ofSource source o).findingAt? w.created = some f := by
  have hFindings := findings_analyzeSource source file o
  split at hFindings
  next hRuns =>
    obtain ⟨hFree, hRun⟩ := hRuns
    rw [hFindings] at hf
    have hUnsafe : o.allowUnsafe = true := by
      by_contra hSafe
      have hNone : (Analysis.ofSource source o).allowUnsafe = false := Bool.eq_false_iff.mpr hSafe
      rw [Analysis.findings_of_safe hNone] at hf
      cases hf
    have ha : (Analysis.ofSource source o).Of source := ⟨rfl, rfl, hUnsafe, rfl⟩
    obtain ⟨e, he, hAt⟩ := List.mem_filterMap.mp (List.mem_mergeSort.mp hf)
    have hCandidate := (ha.isSome_findingAt? (SyntaxTree.mem_arrayCreations.mp he).1).mp
      (Option.isSome_iff_exists.mpr ⟨f, hAt⟩)
    obtain ⟨w, hSource, rfl⟩ := hCandidate.exists_edit hFree
    exact ⟨hRun, hUnsafe, w, hSource, hAt⟩
  next =>
    rw [hFindings] at hf
    cases hf

/-- Following the suggestion of a finding gives a source without errors. Its tree is the one of the
source but for the creation of the finding, which is on the stack now, and its findings are the
others. -/
theorem suggestion_removes_its_finding (source : List Char)
    (hSize : Text.byteSize source < 2147483648) (file : String) (o : Options) (f : Finding)
    (hf : f ∈ (analyzeSource source file o).findings) :
    ∃ (s : Suggestion) (rest edited : List Char) (v : Respelling),
      f.diagnostic.help.bind (·.suggestion) = some s ∧ s.span = f.allocationSpan ∧
      f.allocation.toList = "new".toList ++ rest ∧
      s.replacement.toList = "stackalloc".toList ++ rest ∧
      s.follow? source = some edited ∧
      v.created.span = f.allocationSpan ∧ v.Stacks (parseSource source).1 ∧
      parseSource edited = (v.unit (parseSource source).1, []) ∧
      (analyzeSource edited file o).isReadable = true ∧
      (analyzeSource edited file o).findings =
        ((analyzeSource source file o).findings.filter (· ≠ f)).map (v.finding source edited) := by
  obtain ⟨hRun, hUnsafe, w, rfl, hAt⟩ := exists_edit_of_mem_findings hf
  have ha : (Analysis.ofSource w.source o).Of w.source := ⟨rfl, rfl, hUnsafe, rfl⟩
  have hb : (Analysis.ofSource w.edited o).Of w.edited := ⟨rfl, rfl, hUnsafe, rfl⟩
  obtain ⟨rest, hRest, hFollow⟩ := w.exists_rest
  have hText : f.allocation.toList = "new".toList ++ rest :=
    Option.some.inj ((ha.allocation_eq hAt).symm.trans hRest)
  have hReplacement : f.replacement? = some (String.ofList ("stackalloc".toList ++ rest)) := by
    unfold Finding.replacement?
    rw [hText]
    rfl
  have hEdited : (parseSource w.edited).2 = [] := congrArg Prod.snd w.parsed
  refine ⟨⟨f.allocationSpan, String.ofList ("stackalloc".toList ++ rest)⟩, rest, w.edited,
    w.toRespelling, ?_, rfl, hText, String.toList_ofList, ?_, (ha.allocationSpan_eq hAt).symm,
    w.stacks_source, w.parsed, (isReadable_iff ..).mpr hEdited, ?_⟩
  · rw [f.suggestion_diagnostic, hReplacement]
    rfl
  · rw [ha.allocationSpan_eq hAt]
    exact hFollow
  · rw [findings_analyzeSource w.source, if_pos ⟨w.free, hRun⟩, findings_analyzeSource w.edited,
      if_pos ⟨hEdited, hRun⟩]
    exact w.findings_edited hSize ha hb rfl hAt

set_option maxRecDepth 10000 in
theorem suggestion_removes_only_finding :
    ∃ f ∈ (analyzeSource "class C{void M(){var b=new byte[3]{1,2,3};b[0]=1;}}".toList "input.cs"
        ⟨true, [], [], []⟩).findings,
      ∃ s edited, f.diagnostic.help.bind (·.suggestion) = some s ∧
        s.follow? "class C{void M(){var b=new byte[3]{1,2,3};b[0]=1;}}".toList = some edited ∧
        (analyzeSource edited "input.cs" ⟨true, [], [], []⟩).isReadable = true ∧
        (analyzeSource edited "input.cs" ⟨true, [], [], []⟩).findings = [] := by
  have hLength : (analyzeSource "class C{void M(){var b=new byte[3]{1,2,3};b[0]=1;}}".toList
      "input.cs" ⟨true, [], [], []⟩).findings.length = 1 := by decide +kernel
  obtain ⟨f, hFindings⟩ := List.length_eq_one_iff.mp hLength
  have hMem : f ∈ (analyzeSource "class C{void M(){var b=new byte[3]{1,2,3};b[0]=1;}}".toList
      "input.cs" ⟨true, [], [], []⟩).findings := by
    rw [hFindings]
    exact List.mem_singleton_self f
  obtain ⟨s, _, edited, v, hSuggestion, _, _, _, hEdited, _, _, _, hReadable, hLeft⟩ :=
    suggestion_removes_its_finding "class C{void M(){var b=new byte[3]{1,2,3};b[0]=1;}}".toList
      (by decide) "input.cs" ⟨true, [], [], []⟩ f hMem
  refine ⟨f, hMem, s, edited, hSuggestion, hEdited, hReadable, ?_⟩
  rw [hLeft, hFindings]
  simp

end Stackable
