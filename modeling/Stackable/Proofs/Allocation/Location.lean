import Stackable.Proofs.Respelling.Suggestion

/-!
# Where findings are

A finding is reported at the `=` of the declarator that the allocation initializes. Its line, its
column and its line of text tell where this `=` is in the source, and the allocation is the text
from the word `new` behind it on.
-/

set_option autoImplicit false

namespace Stackable

/-- The finding is at the `=` between `before` and `after`, on the line below `above`. -/
structure Finding.StandsAt (f : Finding) (source above before after ending below : List Char) :
    Prop where
  source_eq : source = above ++ (before ++ '=' :: after) ++ ending ++ below
  opens : Text.OpensLine above
  unbroken : '\n' ∉ before ++ '=' :: after
  ends : Text.EndsLine (before ++ '=' :: after) ending below
  span_eq : f.span = ⟨Text.byteSize (above ++ before), Text.byteSize (above ++ before) + 1⟩
  line_eq : f.location.line = (above ++ before).count '\n' + 1
  lineText_eq : f.location.lineText.toList = before ++ '=' :: after
  column_eq : f.location.column = Text.unitSize before + 1

/-- The line that a location tells of the place of a `=`. -/
theorem Finding.exists_standsAt {a : Analysis} {f : Finding} {source pre post : List Char}
    (hLines : a.lines = .ofSource source) (hLocation : f.location = a.location f.span)
    (hSource : source = pre ++ ('=' :: post))
    (hSpan : f.span = ⟨Text.byteSize pre, Text.byteSize pre + 1⟩)
    (hSize : Text.byteSize source < 4294967295) :
    ∃ above before after ending below, f.StandsAt source above before after ending below := by
  obtain ⟨above, before, rfl, hOpen, hBefore⟩ := Text.exists_opensLine pre
  obtain ⟨after, rest, rfl, hAfter, hClose⟩ := Text.exists_closesLine post
  have hLine : '\n' ∉ before ++ '=' :: after := by simp [hBefore, hAfter]
  have hSplit : source = above ++ (before ++ '=' :: after) ++ rest := by simp [hSource]
  have hShort := Nat.lt_succ_of_lt hSize
  have hPosition := LineMap.editorPosition_at (hSource ▸ hShort) hOpen hBefore
  rw [← hSource] at hPosition
  have hText := LineMap.lineText?_at (hSplit ▸ hShort) hOpen hLine hClose
  rw [← hSplit, LineMap.dropReturn_append_cons before (by decide)] at hText
  obtain ⟨ending, below, hEnding, hEnds⟩ := LineMap.exists_ending (before ++ '=' :: after) hClose
  rw [LineMap.dropReturn_append_cons before (by decide)] at hEnding hEnds
  have hLoc : f.location = ⟨above.count '\n' + 1, Text.unitSize before + 1,
      String.ofList (before ++ '=' :: LineMap.dropReturn after)⟩ := by
    rw [hLocation, Analysis.location, hLines, hSpan]
    dsimp only
    rw [hPosition]
    dsimp only
    rw [hText, Option.getD_some]
  refine ⟨above, before, LineMap.dropReturn after, ending, below, ?_, hOpen, ?_, hEnds, hSpan, ?_,
    ?_, ?_⟩
  · rw [hSplit, List.append_assoc above, hEnding]
    simp only [List.append_assoc]
  · rw [← LineMap.dropReturn_append_cons before (by decide)]
    exact fun hMem => hLine (LineMap.dropReturn_subset _ hMem)
  · rw [hLoc, List.count_append, List.count_eq_zero.mpr hBefore, Nat.add_zero]
  · rw [hLoc, String.toList_ofList]
  · rw [hLoc]

/-- A finding in a source is about an allocation that a local starts with, and that has a `=`
directly in front of its `new`. -/
theorem exists_mark_of_mem_findings {source : List Char} {file : String} {o : Options} {f : Finding}
    (hf : f ∈ (analyzeSource source file o).findings) :
    ∃ (d : Declarator) (i : Initializer) (s : Site) (rest : List Char),
      .declarator d ∈ (SyntaxTree.ofUnit (parseSource source).1).walk ∧ d.init = some i ∧
      i.mark = f.span ∧ i.value = s.expr ∧ f.Reports (.ofSource source o) s ∧
      Site.ofExpr? (.ofUnit (parseSource source).1) i.value = some s ∧
      f.allocation.toList = "new".toList ++ rest ∧
      ∃ x y l, x :: y :: l <:+ (Lexer.tokenize source).tokens ∧ x.kind = .punct .eq ∧
        x.span = f.span ∧ y.kind = .keyword .newKw ∧ y.span.start = f.allocationSpan.start := by
  obtain ⟨_, hUnsafe, w, rfl, hAt⟩ := exists_edit_of_mem_findings hf
  have ha : (Analysis.ofSource w.source o).Of w.source := ⟨rfl, rfl, hUnsafe, rfl⟩
  obtain ⟨rest, hRest, _⟩ := w.exists_rest
  have hText : f.allocation.toList = "new".toList ++ rest :=
    Option.some.inj ((ha.allocation_eq hAt).symm.trans hRest)
  obtain ⟨s, hs, hReports⟩ := Analysis.exists_site hAt
  obtain ⟨hExpr, _, hLocal⟩ := Site.ofExpr?_fields hs
  obtain ⟨v, d, around, hCreated, hInit, hLineage, hBound, hHolds⟩ := w.candidate.exists_respelling
  have hAround : (Analysis.ofSource w.source o).model.tree.ancestors w.created.id = around :=
    hLineage.ancestors_eq (numbered_parseSource w.source)
  have hSpan : v.initial.mark = f.span := by
    rw [hReports.span, Site.mark, hLocal, hAround, hBound, Option.bind_some, hInit]
    rfl
  have hd : .declarator d ∈ (SyntaxTree.ofUnit (parseSource w.source).1).walk := by
    obtain ⟨st, l, outer, rfl, _⟩ := Site.boundLocal?_eq_some.mp hBound
    exact Lineage.mem_walk_iff.mpr ⟨_, hLineage.parent.1⟩
  obtain ⟨⟨x, y, l, hSuffix, hEq, hMark, hNew, hStart⟩, _⟩ :=
    RespelledText.fits_ofSource w.free hHolds
  have hValue : v.initial.value = w.created := hCreated
  refine ⟨d, v.initial, s, rest, hd, hInit, hSpan, hValue.trans hExpr.symm, hReports, ?_, hText,
    x, y, l, hSuffix, hEq, hMark.trans hSpan, hNew, ?_⟩
  · rw [hValue]
    exact hs
  · rw [hStart, ha.allocationSpan_eq hAt, ← hCreated]
    rfl

/-- Every finding is at the `=` of a declarator whose initial value is the allocation. Its location
is the place of this `=`, and its allocation is the text there, which the message quotes. -/
theorem finding_stands_at_mark (source : List Char) (hSize : Text.byteSize source < 4294967295)
    (file : String) (o : Options) (f : Finding)
    (hf : f ∈ (analyzeSource source file o).findings) :
    (∃ d i, .declarator d ∈ (SyntaxTree.ofUnit (parseSource source).1).walk ∧ d.init = some i ∧
      i.mark = f.span ∧ i.value.span = f.allocationSpan ∧
      (Site.ofExpr? (.ofUnit (parseSource source).1) i.value).isSome) ∧
    (∃ y l, ⟨.punct .eq, f.span⟩ :: y :: l <:+ (Lexer.tokenize source).tokens ∧
      y.kind = .keyword .newKw ∧ y.span.start = f.allocationSpan.start) ∧
    (∃ above before after ending below, f.StandsAt source above before after ending below) ∧
    f.allocationSpan.text? source = some f.allocation.toList ∧
    "new".toList <+: f.allocation.toList ∧
    f.message = "Array '" ++ f.allocation ++ "' can be allocated on the stack" := by
  obtain ⟨d, i, s, rest, hd, hInit, hSpan, hValue, hReports, hs, hText, ⟨kind, span⟩, y, l, hSuffix,
    hEq, hMark, hNew, hStart⟩ := exists_mark_of_mem_findings hf
  obtain rfl : kind = .punct .eq := hEq
  obtain rfl : span = f.span := hMark
  have hSpelling : (TokenKind.punct .eq).spelling? = some ['='] := rfl
  obtain ⟨pre, post, hSource, hFrom, hTo⟩ :=
    Lexer.spelled_of_mem_tokenize (hSuffix.subset List.mem_cons_self) hSpelling
  have hPlace : f.span = ⟨Text.byteSize pre, Text.byteSize pre + 1⟩ := by
    rw [← hFrom]
    exact congrArg (Span.mk _) hTo
  refine ⟨⟨d, i, hd, hInit, hSpan, ?_, Option.isSome_of_mem hs⟩, ⟨y, l, hSuffix, hNew, hStart⟩,
    Finding.exists_standsAt rfl hReports.location hSource hPlace hSize, ?_, ⟨rest, hText.symm⟩,
    hReports.message⟩
  · rw [hValue, hReports.allocationSpan]
  · rw [hReports.allocationSpan]
    exact hReports.allocation

/-- A class with a method of the given body. -/
def inMethod (body : String) : List Char :=
  "class C".toList ++ '{' :: "void M()".toList ++ '{' :: body.toList ++ ['}', '}']

/-- A creation on the second line, between other statements and behind a character of four bytes. -/
def createdBehindWide : List Char := inMethod "\r\n/*😀*/var b=new byte[3];b[0]=1;\r\n"

set_option maxRecDepth 10000 in
theorem finding_stands_behind_wide : Text.byteSize createdBehindWide < 4294967295 ∧
    ∃ f ∈ (analyzeSource createdBehindWide "input.cs" ⟨true, [], [], []⟩).findings,
      f.location = ⟨2, 12, "/*😀*/var b=new byte[3];b[0]=1;"⟩ ∧
      ∃ above before after ending below,
        f.StandsAt createdBehindWide above before after ending below := by
  have hAll : (analyzeSource createdBehindWide "input.cs" ⟨true, [], [], []⟩).findings.map
      (·.location) = [⟨2, 12, "/*😀*/var b=new byte[3];b[0]=1;"⟩] := by decide +kernel
  obtain ⟨f, hFindings, hLocation⟩ := List.map_eq_singleton_iff.mp hAll
  have hMem : f ∈ (analyzeSource createdBehindWide "input.cs" ⟨true, [], [], []⟩).findings := by
    rw [hFindings]
    exact List.mem_singleton_self f
  exact ⟨by decide, f, hMem, hLocation,
    (finding_stands_at_mark createdBehindWide (by decide) _ _ f hMem).2.2.1⟩

end Stackable
