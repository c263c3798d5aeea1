import Stackable.Proofs.Diagnostic.Location

/-!
# The line that a suggestion leads to

The terminal and the report put a replacement into the text of the line on which it starts, and
what they take out of this line ends with it at the latest. So both show the same text, which is
the text of the edited source unless the part that is replaced goes on behind its first line: then
what stands behind the part on its last line is not shown.
-/

set_option autoImplicit false

namespace Stackable

namespace Text

/-- A part of a text stands behind `before` and in front of `after` on its lines. The last of them
ends with `ending`. -/
structure OnLines (source above before part after ending below : List Char) : Prop where
  source_eq : source = above ++ (before ++ part ++ after) ++ ending ++ below
  opens : OpensLine above
  unbroken_before : '\n' ∉ before
  unbroken_after : '\n' ∉ after
  ends : EndsLine after ending below

/-- A span cuts a part out of a text. In front of the part and behind it its lines go on with
`before` and `raw`, where `raw` may end with the carriage return of the line's ending. -/
structure IsCut (source : List Char) (span : Span) (above before part raw rest : List Char) :
    Prop where
  source_eq : source = above ++ before ++ part ++ (raw ++ rest)
  start_eq : span.start = byteSize (above ++ before)
  stop_eq : span.stop = byteSize (above ++ before ++ part)
  opens : OpensLine above
  unbroken_before : '\n' ∉ before
  unbroken_raw : '\n' ∉ raw
  closes : ClosesLine rest

variable {source above before part raw rest : List Char} {span : Span}

theorem exists_isCut (h : span.text? source = some part) :
    ∃ above before raw rest, IsCut source span above before part raw rest := by
  obtain ⟨front, back, hSource, hStart, hStop⟩ := slice?_eq_some_iff.mp h
  obtain ⟨above, before, rfl, hOpens, hBefore⟩ := exists_opensLine front
  obtain ⟨raw, rest, rfl, hRaw, hCloses⟩ := exists_closesLine back
  exact ⟨above, before, raw, rest, hSource, hStart.symm, hStop.symm, hOpens, hBefore, hRaw, hCloses⟩

namespace IsCut

theorem length (h : IsCut source span above before part raw rest) :
    span.length = byteSize part := by
  rw [Span.length, h.start_eq, h.stop_eq, byteSize_append (above ++ before),
    Nat.add_sub_cancel_left]

theorem position (h : IsCut source span above before part raw rest)
    (hSize : byteSize source < 4294967296) : (LineMap.ofSource source).position span.start =
      ⟨above.count '\n' + 1, byteSize before + 1⟩ := by
  rw [h.source_eq, List.append_assoc (above ++ before)] at hSize
  rw [h.start_eq, h.source_eq, List.append_assoc (above ++ before)]
  exact LineMap.position_at hSize h.opens h.unbroken_before

theorem follow? (h : IsCut source span above before part raw rest) (replacement : String) :
    (Suggestion.mk span replacement).follow? source =
      some (above ++ before ++ replacement.toList ++ (raw ++ rest)) := by
  have hSpan : span = ⟨byteSize (above ++ before), byteSize (above ++ before ++ part)⟩ := by
    rw [← h.start_eq, ← h.stop_eq]
  rw [hSpan, h.source_eq]
  exact Suggestion.follow?_append ..

/-- Whatever is put in the place of the part stands between the same texts. -/
theorem exists_onLines (h : IsCut source span above before part raw rest) :
    ∃ ending below, ∀ other, OnLines (above ++ before ++ other ++ (raw ++ rest)) above before other
      (LineMap.dropReturn raw) ending below := by
  obtain ⟨ending, below, hSplit, hEnds⟩ := LineMap.exists_ending raw h.closes
  refine ⟨ending, below, fun other => ⟨?_, h.opens, h.unbroken_before, ?_, hEnds⟩⟩
  · rw [hSplit]
    simp only [List.append_assoc]
  · exact fun hAfter => h.unbroken_raw (LineMap.dropReturn_subset raw hAfter)

end IsCut

end Text

namespace Suggestion

variable {s : Suggestion} {before part after rest : List Char}

/-- What a suggestion takes out of a line ends with the line at the latest. -/
theorem around?_of_stop (hStop : min (Text.byteSize before + s.span.length)
      (Text.byteSize (before ++ part ++ after)) = Text.byteSize (before ++ part)) :
    s.around? (Text.byteSize before + 1) (before ++ part ++ after) = some (before, after) := by
  have hTake := Text.takeBytes?_append before (part ++ after)
  have hDrop := Text.dropBytes?_append (before ++ part) after
  rw [← List.append_assoc] at hTake
  have hStart : min (Text.byteSize before + 1 - 1) (Text.byteSize (before ++ part ++ after)) =
      Text.byteSize before := by
    simp only [Text.byteSize_append]
    omega
  unfold around?
  dsimp only
  rw [hStart, hStop, hTake, hDrop]
  rfl

/-- A part that ends on the line leaves what stands behind it. -/
theorem around?_append (hLength : s.span.length = Text.byteSize part) :
    s.around? (Text.byteSize before + 1) (before ++ part ++ after) = some (before, after) := by
  apply around?_of_stop
  simp only [Text.byteSize_append]
  omega

/-- A part that is at least as long as the rest of the line takes all of the rest. -/
theorem around?_of_le (hLength : Text.byteSize rest ≤ s.span.length) :
    s.around? (Text.byteSize before + 1) (before ++ rest) = some (before, []) := by
  rw [← List.append_nil (before ++ rest)]
  apply around?_of_stop
  simp only [Text.byteSize_append, Text.byteSize]
  omega

end Suggestion

namespace LineMap

theorem dropReturn_append (before : List Char) {after : List Char} (h : after ≠ []) :
    dropReturn (before ++ after) = before ++ dropReturn after := by
  unfold dropReturn
  rw [List.getLast?_append_of_ne_nil _ h, List.dropLast_append_of_ne_nil h]
  split <;> rfl

theorem byteSize_dropReturn_le (line : List Char) :
    Text.byteSize (dropReturn line) ≤ Text.byteSize line := by
  unfold dropReturn
  split
  next hLast =>
    obtain ⟨front, rfl⟩ := List.getLast?_eq_some_iff.mp hLast
    rw [List.dropLast_concat, Text.byteSize_append]
    exact Nat.le_add_right _ _
  next => exact Nat.le_refl _

end LineMap

/-- Of the line on which a part starts, a suggestion for the part leaves what is in front of it, and
what is behind it if the part ends on this line. -/
theorem Text.IsCut.exists_around {source above before raw rest cs : List Char} {c : Char}
    {s : Suggestion} (h : IsCut source s.span above before (c :: cs) raw rest)
    (hSize : byteSize source < 4294967296) (hNewline : c ≠ '\n') (hReturn : c ≠ '\r') :
    ∃ line, (LineMap.ofSource source).lineText? (above.count '\n' + 1) = some line ∧
      s.around? (byteSize before + 1) line =
        some (before, if '\n' ∈ c :: cs then [] else LineMap.dropReturn raw) := by
  have hLength := h.length
  have hSource := h.source_eq
  by_cases hPart : '\n' ∈ c :: cs
  · -- the line ends inside the part
    obtain ⟨first, more, hSplit, hFirst, hMore⟩ := exists_closesLine cs
    have hLine : '\n' ∉ before ++ c :: first := by
      simp [h.unbroken_before, hFirst, Ne.symm hNewline]
    have hCloses : ClosesLine (more ++ (raw ++ rest)) := by
      rcases hMore with rfl | hMore
      · simp [hSplit, hFirst, Ne.symm hNewline] at hPart
      · exact .inr (by rw [List.head?_append, hMore]; rfl)
    have hCut : source = above ++ (before ++ c :: first) ++ (more ++ (raw ++ rest)) := by
      rw [hSource, hSplit]
      simp only [List.append_assoc, List.cons_append]
    have hText := LineMap.lineText?_at (hCut ▸ hSize) h.opens hLine hCloses
    rw [← hCut, LineMap.dropReturn_append_cons before hReturn] at hText
    refine ⟨before ++ c :: LineMap.dropReturn first, hText, ?_⟩
    · rw [if_pos hPart]
      apply Suggestion.around?_of_le
      have hLe := LineMap.byteSize_dropReturn_le first
      rw [hLength, hSplit, byteSize, byteSize, byteSize_append]
      omega
  · have hLine : '\n' ∉ before ++ (c :: cs) ++ raw := by
      simp only [List.mem_append, h.unbroken_before, hPart, h.unbroken_raw, or_self,
        not_false_eq_true]
    have hCut : source = above ++ (before ++ (c :: cs) ++ raw) ++ rest := by
      rw [hSource]
      simp only [List.append_assoc]
    have hText := LineMap.lineText?_at (hCut ▸ hSize) h.opens hLine h.closes
    rw [← hCut] at hText
    refine ⟨LineMap.dropReturn (before ++ (c :: cs) ++ raw), hText, ?_⟩
    · rw [if_neg hPart]
      cases raw with
      | nil =>
        rw [List.append_nil, LineMap.dropReturn_append_cons before hReturn]
        apply Suggestion.around?_of_le
        have hLe := LineMap.byteSize_dropReturn_le cs
        rw [hLength, byteSize, byteSize]
        omega
      | cons r raw =>
        rw [LineMap.dropReturn_append _ (List.cons_ne_nil r raw)]
        exact Suggestion.around?_append hLength

section Shown

variable {lines : LineMap} {s : Suggestion} {p : Position} {line before after : List Char}
  {d : Diagnostic}

theorem Report.suggestion_entry (hSuggestion : d.help.bind (·.suggestion) = some s)
    (hPosition : lines.position s.span.start = p) (hLine : lines.lineText? p.line = some line)
    (hAround : s.around? p.column line = some (before, after)) :
    (Report.entry lines d).suggestion =
      some ⟨s.span, s.replacement, String.ofList (before ++ s.replacement.toList ++ after)⟩ := by
  unfold Report.entry
  dsimp only
  rw [hSuggestion, Option.map_some, Report.resultLine, Report.lineText, hPosition, hLine,
    Option.getD_some, hAround]

namespace Snippet

/-- The row that shows a line with the replacement between two parts of it. -/
def splicedLine (number : Nat) (before : List Char) (replacement : String) (after : List Char) :
    List Styled :=
  numberedLine footerWidth number
    [.plain (String.ofList before), .colored .green replacement, .plain (String.ofList after)]

theorem exists_suggestionRows (hLine : lines.lineText? p.line = some line)
    (hAround : s.around? p.column line = some (before, after)) :
    ∃ rows rest, suggestionRows lines s p =
      rows ++ splicedLine p.line before s.replacement after ++ rest := by
  refine ⟨margin footerWidth ++ [newline], margin footerWidth ++
    [.plain (" " ++ blanks (Text.byteSize before)),
      .colored .green ("".pushn '~' s.replacement.length), newline], ?_⟩
  rw [suggestionRows, hLine, Option.bind_some, hAround]
  simp only [splicedLine, List.append_assoc, List.cons_append, List.nil_append]

/-- Diagnostics end with the rows of their suggestion. -/
theorem exists_format_of_suggestion (file : Option String)
    (hSuggestion : d.help.bind (·.suggestion) = some s) :
    ∃ rows, format lines file d =
      rows ++ suggestionRows lines s (lines.position s.span.start) := by
  obtain ⟨h, hHelp, hSome⟩ := Option.bind_eq_some_iff.mp hSuggestion
  unfold format footer
  rw [hHelp]
  dsimp only
  rw [hSome]
  simp only [← List.append_assoc]
  exact ⟨_, rfl⟩

end Snippet

end Shown

/-- Every finding suggests a replacement for its allocation, which starts with the word `new`. -/
theorem Finding.exists_suggestion {source : List Char} {file : String} {o : Options} {f : Finding}
    (hf : f ∈ (analyzeSource source file o).findings) :
    ∃ more replacement, f.allocation.toList = 'n' :: more ∧
      f.allocationSpan.text? source = some f.allocation.toList ∧
      f.diagnostic.help.bind (·.suggestion) = some ⟨f.allocationSpan, replacement⟩ := by
  obtain ⟨_, _, _, rest, _, _, _, _, hReports, _, hText, _⟩ := exists_mark_of_mem_findings hf
  have hReplacement : f.replacement? = some (String.ofList ("stackalloc".toList ++ rest)) := by
    unfold replacement?
    rw [hText]
    rfl
  refine ⟨'e' :: 'w' :: rest, String.ofList ("stackalloc".toList ++ rest), hText, ?_, ?_⟩
  · rw [hReports.allocationSpan]
    exact hReports.allocation
  · rw [f.suggestion_diagnostic, hReplacement]
    rfl

/-- The terminal and the report show the same text for the suggestion of a finding. It is the text
of the edited source, from the start of the line on which the allocation starts to the end of the
line on which the replacement ends, exactly if the allocation is on one line or nothing is behind
it on its last line. What is behind an allocation of several lines is left out. -/
theorem suggestion_shown_whole_iff (source : List Char) (file : String) (o : Options) (f : Finding)
    (hf : f ∈ (analyzeSource source file o).findings)
    (hSize : Text.byteSize source < 4294967296) (name : Option String) :
    ∃ (s : Suggestion) (edited above before after ending below kept : List Char)
        (rows rest : List Styled),
      f.diagnostic.help.bind (·.suggestion) = some s ∧ s.span = f.allocationSpan ∧
      s.follow? source = some edited ∧
      Text.OnLines source above before f.allocation.toList after ending below ∧
      Text.OnLines edited above before s.replacement.toList after ending below ∧
      (Report.entry (.ofSource source) f.diagnostic).suggestion =
        some ⟨s.span, s.replacement, String.ofList (before ++ s.replacement.toList ++ kept)⟩ ∧
      Snippet.format (.ofSource source) name f.diagnostic =
        rows ++ Snippet.splicedLine (above.count '\n' + 1) before s.replacement kept ++ rest ∧
      kept = (if '\n' ∈ f.allocation.toList then [] else after) ∧
      (before ++ s.replacement.toList ++ kept = before ++ s.replacement.toList ++ after ↔
        '\n' ∉ f.allocation.toList ∨ after = []) := by
  obtain ⟨more, replacement, hNew, hAllocation, hSuggestion⟩ := Finding.exists_suggestion hf
  obtain ⟨above, before, raw, rest, hCut⟩ := Text.exists_isCut hAllocation
  obtain ⟨ending, below, hLines⟩ := hCut.exists_onLines
  have hSourceLines := hLines f.allocation.toList
  rw [← hCut.source_eq] at hSourceLines
  have hPosition := hCut.position hSize
  obtain ⟨line, hLine, hAround⟩ : ∃ line,
      (LineMap.ofSource source).lineText? (above.count '\n' + 1) = some line ∧
      (Suggestion.mk f.allocationSpan replacement).around? (Text.byteSize before + 1) line =
        some (before, if '\n' ∈ f.allocation.toList then [] else LineMap.dropReturn raw) := by
    rw [hNew] at hCut ⊢
    exact Text.IsCut.exists_around (s := ⟨f.allocationSpan, replacement⟩) hCut hSize (by decide)
      (by decide)
  obtain ⟨front, hFront⟩ := Snippet.exists_format_of_suggestion name hSuggestion
  rw [hPosition] at hFront
  obtain ⟨rows, behind, hRows⟩ := Snippet.exists_suggestionRows
    (s := ⟨f.allocationSpan, replacement⟩) (p := ⟨above.count '\n' + 1, Text.byteSize before + 1⟩)
    hLine hAround
  have hFormat := hFront.trans (congrArg (front ++ ·) hRows)
  rw [← List.append_assoc, ← List.append_assoc] at hFormat
  refine ⟨_, _, above, before, LineMap.dropReturn raw, ending, below, _, _, behind, hSuggestion,
    rfl, hCut.follow? replacement, hSourceLines, hLines replacement.toList,
    Report.suggestion_entry hSuggestion hPosition hLine hAround, hFormat, rfl, ?_⟩
  rw [List.append_cancel_left_eq]
  split
  next hMulti => simp only [hMulti, not_true_eq_false, false_or, eq_comm]
  next hSingle => simp only [hSingle, not_false_eq_true, true_or]

set_option maxRecDepth 10000 in
theorem suggestion_shown_whole_on_wide_line :
    ∃ f ∈ (analyzeSource createdBehindWide "input.cs" ⟨true, [], [], []⟩).findings,
      Text.byteSize createdBehindWide < 4294967296 ∧ '\n' ∉ f.allocation.toList ∧
      ∃ (s : Suggestion) (edited above before after ending below : List Char),
        s.follow? createdBehindWide = some edited ∧
        Text.OnLines edited above before s.replacement.toList after ending below ∧
        (Report.entry (.ofSource createdBehindWide) f.diagnostic).suggestion =
          some ⟨s.span, s.replacement, String.ofList (before ++ s.replacement.toList ++ after)⟩ ∧
        ∃ rows rest, Snippet.format (.ofSource createdBehindWide) none f.diagnostic =
          rows ++ Snippet.splicedLine (above.count '\n' + 1) before s.replacement after ++
            rest := by
  have hFound : "new byte[3]" ∈ (analyzeSource createdBehindWide "input.cs"
      ⟨true, [], [], []⟩).findings.map (·.allocation) := by
    decide +kernel
  obtain ⟨f, hMem, hAllocation⟩ := List.mem_map.mp hFound
  have hSize : Text.byteSize createdBehindWide < 4294967296 := by decide
  have hLine : '\n' ∉ f.allocation.toList := by
    rw [hAllocation]
    decide
  obtain ⟨s, edited, above, before, after, ending, below, kept, rows, rest, _, _, hFollow, _,
    hLines, hEntry, hFormat, hKept, _⟩ :=
    suggestion_shown_whole_iff createdBehindWide "input.cs" _ f hMem hSize none
  rw [if_neg hLine] at hKept
  subst hKept
  exact ⟨f, hMem, hSize, hLine, s, edited, above, before, kept, ending, below, hFollow, hLines,
    hEntry, rows, rest, hFormat⟩

/-- A creation of two lines with an assignment behind it. -/
def createdOverLines : List Char := inMethod "\nvar b=new byte[\n3];b[0]=1;"

set_option maxRecDepth 10000 in
/-- What is shown for the suggestion ends with the creation, and the line goes on behind it. -/
theorem exists_suggestion_cut :
    ∃ f ∈ (analyzeSource createdOverLines "input.cs" ⟨true, [], [], []⟩).findings,
      ∃ s : Suggestion,
        f.diagnostic.help.bind (·.suggestion) = some s ∧ s.span = f.allocationSpan ∧
        s.follow? createdOverLines = some (inMethod "\nvar b=stackalloc byte[\n3];b[0]=1;") ∧
        (Report.entry (.ofSource createdOverLines) f.diagnostic).suggestion =
          some ⟨s.span, s.replacement, "var b=stackalloc byte[\n3]"⟩ ∧
        ∃ rows rest, Snippet.format (.ofSource createdOverLines) none f.diagnostic =
          rows ++ Snippet.splicedLine 2 "var b=".toList s.replacement [] ++ rest := by
  have hFound : (⟨24, 36⟩, some ⟨⟨24, 36⟩, "stackalloc byte[\n3]"⟩) ∈
      (analyzeSource createdOverLines "input.cs" ⟨true, [], [], []⟩).findings.map
        (fun f => (f.allocationSpan, f.diagnostic.help.bind (·.suggestion))) := by
    decide +kernel
  obtain ⟨f, hMem, hFields⟩ := List.mem_map.mp hFound
  obtain ⟨hSpan, hSuggestion⟩ := Prod.mk.inj hFields
  have hPosition : (LineMap.ofSource createdOverLines).position 24 = ⟨2, 7⟩ := by decide +kernel
  have hLine : (LineMap.ofSource createdOverLines).lineText? 2 =
      some "var b=new byte[".toList := by decide +kernel
  have hAround : (Suggestion.mk ⟨24, 36⟩ "stackalloc byte[\n3]").around? 7
      "var b=new byte[".toList = some ("var b=".toList, []) := by decide +kernel
  refine ⟨f, hMem, _, hSuggestion, hSpan.symm, by decide +kernel, ?_, ?_⟩
  · exact Report.suggestion_entry hSuggestion hPosition hLine hAround
  · obtain ⟨front, hFront⟩ := Snippet.exists_format_of_suggestion none hSuggestion
    rw [hPosition] at hFront
    obtain ⟨rows, rest, hRows⟩ := Snippet.exists_suggestionRows
      (s := ⟨⟨24, 36⟩, "stackalloc byte[\n3]"⟩) (p := ⟨2, 7⟩) hLine hAround
    rw [hFront, hRows]
    exact ⟨front ++ rows, rest, by simp only [List.append_assoc]⟩

end Stackable
