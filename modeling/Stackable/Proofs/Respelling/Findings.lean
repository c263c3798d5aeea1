import Mathlib.Data.List.Pairwise
import Stackable.Proofs.Respelling.Lines
import Stackable.Proofs.Respelling.Sites
import Stackable.Proofs.Respelling.Text

/-!
# Findings under a respelling

An edit respells the word of a candidate for the stack. The finding about this candidate is gone in
the edited source, and all others are reported again in their order, each where its `=` has moved
to.
-/

set_option autoImplicit false

namespace Stackable

section Sorting

variable {α : Type} {le : α → α → Bool} (trans : ∀ a b c, le a b → le b c → le a c)
  (total : ∀ a b, le a b || le b a)

include trans total

theorem mergeSort_cons_eq (a : α) (l : List α) : (a :: l).mergeSort le =
    (l.mergeSort le).filter (!le a ·) ++ a :: (l.mergeSort le).filter (le a ·) := by
  obtain ⟨front, back, hCons, hRest, hFront⟩ := List.mergeSort_cons trans total a l
  have hSorted := List.pairwise_mergeSort trans total (a :: l)
  rw [hCons] at hSorted
  have hBack : ∀ b ∈ back, le a b := (List.pairwise_cons.mp (List.pairwise_append.mp hSorted).2.1).1
  have hFrontNone : front.filter (le a ·) = [] := by
    rw [List.filter_eq_nil_iff]
    intro b hb
    simpa using hFront b hb
  have hBackNone : back.filter (!le a ·) = [] := by
    rw [List.filter_eq_nil_iff]
    intro b hb
    simpa using hBack b hb
  rw [hCons, hRest, List.filter_append, List.filter_append, hFrontNone, hBackNone,
    List.filter_eq_self.mpr hFront, List.filter_eq_self.mpr hBack, List.append_nil,
    List.nil_append]

/-- A stable sort keeps the order of what remains. -/
theorem mergeSort_filter (p : α → Bool) (l : List α) :
    (l.filter p).mergeSort le = (l.mergeSort le).filter p := by
  induction l with
  | nil => rw [List.filter_nil, List.mergeSort_nil, List.filter_nil]
  | cons a l ih =>
    by_cases ha : p a
    · rw [List.filter_cons_of_pos ha, mergeSort_cons_eq trans total, mergeSort_cons_eq trans total,
        ih, List.filter_comm, List.filter_comm (le a ·), List.filter_append,
        List.filter_cons_of_pos ha]
    · obtain ⟨front, back, hCons, hRest, _⟩ := List.mergeSort_cons trans total a l
      rw [List.filter_cons_of_neg ha, ih, hCons, hRest, List.filter_append, List.filter_append,
        List.filter_cons_of_neg ha]

end Sorting

theorem Tokens.Ordered.apart {source : List Char} {ts : List Token} (h : Tokens.Ordered source ts)
    {x y : Token} (hx : x ∈ ts) (hy : y ∈ ts) (hne : x ≠ y) :
    x.span.stop ≤ y.span.start ∨ y.span.stop ≤ x.span.start := by
  have : Std.Symm fun x y : Token =>
      x.span.stop ≤ y.span.start ∨ y.span.stop ≤ x.span.start := ⟨fun _ _ h => h.symm⟩
  have hPairs : ts.Pairwise fun x y =>
      x.span.stop ≤ y.span.start ∨ y.span.stop ≤ x.span.start := h.sorted.imp .inl
  exact hPairs.forall hx hy hne

/-- A source without errors in which the word of a candidate for the stack is respelled. -/
structure Edit extends Respelling where
  /-- The text in front of the word. -/
  pre : List Char
  /-- The text behind the word. -/
  post : List Char
  word_eq : toRespelling.word = Text.byteSize pre
  free : (parseSource (pre ++ ("new".toList ++ post))).2 = []
  candidate : StackCandidate (parseSource (pre ++ ("new".toList ++ post))).1 toRespelling.created
  fits : (RespelledText.ofSource (pre ++ ("new".toList ++ post)) initial).Fits
  parsed : parseSource (pre ++ ("stackalloc".toList ++ post)) =
    (toRespelling.unit (parseSource (pre ++ ("new".toList ++ post))).1, [])

namespace Edit

variable (w : Edit)

def source : List Char := w.pre ++ ("new".toList ++ w.post)

def edited : List Char := w.pre ++ ("stackalloc".toList ++ w.post)

theorem exists_token : ∃ t ∈ (Lexer.tokenize w.source).tokens, t.kind = .keyword .newKw ∧
    t.span = ⟨w.word, w.word + 3⟩ := by
  obtain ⟨⟨x, t, l, hSuffix, _, _, hKind, hStart⟩, _⟩ := w.fits
  have hMem : t ∈ (Lexer.tokenize w.source).tokens := hSuffix.subset (by simp)
  obtain ⟨_, _, _, _, hStop⟩ := Lexer.exists_new_of_mem_tokenize hMem hKind
  rw [hStart] at hStop
  refine ⟨t, hMem, hKind, ?_⟩
  obtain ⟨kind, start, stop⟩ := t
  cases hStart
  cases hStop
  rfl

/-- Every token but the word itself stands in front of the word or behind it. -/
theorem token_apart {x : Token} (hx : x ∈ (Lexer.tokenize w.source).tokens) :
    x.kind = .keyword .newKw ∧ x.span = ⟨w.word, w.word + 3⟩ ∨
      x.span.stop ≤ w.word ∨ w.word + 3 ≤ x.span.start := by
  obtain ⟨t, ht, hNew, hSpan⟩ := w.exists_token
  by_cases h : x = t
  · rw [h]
    exact .inl ⟨hNew, hSpan⟩
  · have hApart := (Lexer.ordered_tokenize w.source).apart hx ht h
    rw [hSpan] at hApart
    exact .inr hApart

/-- The candidate is at least as long as its word. -/
theorem word_le_stop : w.word + 3 ≤ w.created.span.stop := by
  have hOrdered := Lexer.ordered_tokenize w.source
  have hWidth := span_start_lt_stop w.candidate.mem_walk
  obtain ⟨start, rest, place, hStart⟩ := placed_of_mem_walk w.candidate.mem_walk
  obtain ⟨read, first, last, hRead, hInner, _, hLast, hSpan⟩ := place.span
  have hLastMem := List.mem_of_mem_getLast? hLast
  have hMem : last ∈ (Lexer.tokenize w.source).tokens := by
    apply hStart.subset
    rw [hRead]
    exact List.mem_append_left _ hLastMem
  have hStop : w.created.span.stop = last.span.stop :=
    (congrArg Span.stop hSpan : (Node.expr w.created).span.stop = _)
  have hWord : w.word < last.span.stop := hStop ▸ hWidth
  rw [hStop]
  rcases w.token_apart hMem with ⟨_, hLastSpan⟩ | hBefore | hBehind
  · rw [hLastSpan]
  · omega
  · have := hOrdered.width last hMem (hInner last hLastMem)
    omega

/-- Another candidate is apart from the word, and so is the `=` in front of it. -/
theorem other_apart {x : Expr} (hx : StackCandidate (parseSource w.source).1 x)
    (hne : x ≠ w.created) :
    (x.span.stop ≤ w.word ∨ w.word + 3 ≤ x.span.start) ∧
    ∃ (d : Declarator) (i : Initializer) (around : List Node),
      Lineage (parseSource w.source).1 (.expr x) around ∧ Site.boundLocal? around = some d ∧
      d.init = some i ∧ Text.Boundary w.source i.mark.start ∧
      (i.mark.start ≤ w.word ∨ w.word + 3 ≤ i.mark.start) := by
  constructor
  · rcases hx.apart w.candidate hne with hBefore | hBehind
    · exact .inl hBefore
    · exact .inr (Nat.le_trans w.word_le_stop hBehind)
  · obtain ⟨v, d, around, _, hInit, hLineage, hBound, hHolds⟩ := hx.exists_respelling
    obtain ⟨⟨m, y, l, hSuffix, hKind, hMark, _⟩, _⟩ := RespelledText.fits_ofSource w.free hHolds
    have hMem : m ∈ (Lexer.tokenize w.source).tokens := hSuffix.subset (by simp)
    have hMark : m.span = v.initial.mark := hMark
    have hOrdered := Lexer.ordered_tokenize w.source
    refine ⟨d, v.initial, around, hLineage, hBound, hInit, ?_, ?_⟩
    · rw [← hMark]
      exact (hOrdered.bounds m hMem).1
    · rw [← hMark]
      rcases w.token_apart hMem with ⟨hNew, _⟩ | hBefore | hBehind
      · rw [hKind] at hNew
        cases hNew
      · have := hOrdered.width m hMem (by rw [hKind]; rfl)
        omega
      · exact .inr hBehind

end Edit

namespace Respelling

variable (v : Respelling) (source edited : List Char)

/-- A location once the word is respelled: the line is the same one, and what stands behind the
word on this line moves to the right. -/
def location (offset : Nat) (l : Location) : Location :=
  ⟨l.line, l.column + if v.Precedes source offset then 7 else 0,
    String.ofList (((LineMap.ofSource edited).lineText? l.line).getD [])⟩

/-- A finding once the word is respelled. -/
def finding (f : Finding) : Finding :=
  { f with
    location := v.location source edited f.span.start f.location
    span := v.span f.span
    allocationSpan := v.span f.allocationSpan }

end Respelling

namespace Edit

variable (w : Edit) {a b : Analysis} {x : Expr}

theorem location_edited (ha : a.lines = .ofSource w.source) (hb : b.lines = .ofSource w.edited)
    (hSize : Text.byteSize w.source < 2147483648) {span : Span}
    (hBoundary : Text.Boundary w.source span.start)
    (hApart : span.start ≤ w.word ∨ w.word + 3 ≤ span.start) :
    b.location (w.span span) = w.location w.source w.edited span.start (a.location span) := by
  have hEdited : Text.byteSize w.edited < 4294967296 := by
    have hGrows : Text.byteSize "stackalloc".toList = Text.byteSize "new".toList + 7 := by decide
    simp only [Edit.source, Edit.edited, Text.byteSize_append] at hSize ⊢
    omega
  have hPosition : (LineMap.ofSource w.edited).editorPosition (w.span span).start =
      ⟨((LineMap.ofSource w.source).editorPosition span.start).line,
        ((LineMap.ofSource w.source).editorPosition span.start).column +
          if w.Precedes w.source span.start then 7 else 0⟩ :=
    Respelling.editorPosition_respelled hEdited w.word_eq hBoundary hApart
  unfold Analysis.location
  rw [ha, hb, hPosition]
  rfl

theorem report_site (hSize : Text.byteSize w.source < 2147483648) (ha : a.Of w.source)
    (hb : b.Of w.edited) (hSeverity : b.severity = a.severity)
    (hx : StackCandidate (parseSource w.source).1 x) (hne : x ≠ w.created) {s : Site}
    (hs : Site.ofExpr? (.ofUnit (parseSource w.source).1) x = some s) :
    b.report (w.site s) = (a.report s).map (w.finding w.source w.edited) := by
  obtain ⟨hApart, d, i, around, hLineage, hBound, hInit, hBoundary, hMark⟩ := w.other_apart hx hne
  obtain ⟨rfl, _, hLocal⟩ := Site.ofExpr?_fields hs
  have hAround : (Model.ofUnit (parseSource w.source).1).tree.ancestors s.expr.id = around :=
    hLineage.ancestors_eq (numbered_parseSource w.source)
  rw [hAround, hBound] at hLocal
  have hLocation := w.location_edited ha.lines hb.lines hSize hBoundary hMark
  obtain ⟨text, hText⟩ := Option.isSome_iff_exists.mp (isSome_text? hx.mem_walk)
  have hOld : s.expr.span.text? a.lines.source = some text := by
    rw [ha.lines]
    exact hText
  have hNew : (w.site s).expr.span.text? b.lines.source = some text := by
    rw [hb.lines, show (w.site s).expr = w.expr s.expr from rfl, Respelling.expr_span]
    exact Respelling.slice?_respelled w.word_eq hText hApart
  have hSpan : ((s.localVar.bind (·.init)).map (·.mark)).getD s.expr.span = i.mark := by
    rw [hLocal, Option.bind_some, hInit]
    rfl
  have hSpan' : (((w.site s).localVar.bind (·.init)).map (·.mark)).getD (w.site s).expr.span =
      w.span i.mark := by
    rw [show (w.site s).localVar = s.localVar.map w.declarator from rfl, hLocal, Option.map_some,
      Option.bind_some, Respelling.declarator, hInit]
    rfl
  unfold Analysis.report
  rw [hOld, hNew, hSpan, hSpan', hSeverity,
    show (w.site s).expr.span = w.span s.expr.span from w.expr_span s.expr]
  dsimp only
  rw [hLocation]
  rfl

theorem findingAt?_edited (hSize : Text.byteSize w.source < 2147483648) (ha : a.Of w.source)
    (hb : b.Of w.edited) (hSeverity : b.severity = a.severity)
    (hx : .expr x ∈ (SyntaxTree.ofUnit (parseSource w.source).1).walk) (hne : x ≠ w.created) :
    b.findingAt? (w.expr x) = (a.findingAt? x).map (w.finding w.source w.edited) := by
  have hStart : x.span.start ≠ w.word := fun h => hne (w.candidate.eq_of_start w.fits.2 hx h)
  have hModel : b.model = .ofUnit (w.unit (parseSource w.source).1) := by
    rw [hb.model]
    exact congrArg (Model.ofUnit ·.1) w.parsed
  unfold Analysis.findingAt?
  rw [if_pos ha.allowUnsafe, if_pos hb.allowUnsafe, hModel, ha.model, w.ofExpr?_unit _ hStart]
  cases hs : Site.ofExpr? (.ofUnit (parseSource w.source).1) x with
  | none => rfl
  | some s =>
    have hExpr : s.expr.span.start ≠ w.word := (Site.ofExpr?_fields hs).1 ▸ hStart
    have hContext : (w.site s).context (Model.ofUnit (w.unit (parseSource w.source).1)).tree =
        s.context (Model.ofUnit (parseSource w.source).1).tree := w.context_site _ s
    have hSame : b.isCandidate (w.site s) = a.isCandidate s := by
      unfold Analysis.isCandidate
      rw [hb.prover, ha.prover, hModel, ha.model, w.escape_site, w.size_site _ hExpr, hContext]
    simp only [Option.bind_some, Option.map_some, hSame]
    split
    next hc =>
      obtain ⟨around, hLineage⟩ := Lineage.mem_walk_iff.mp hx
      rw [Analysis.isCandidate_iff, ha.model, ha.prover] at hc
      have hCandidate := (Site.passes_iff (numbered_parseSource w.source) hLineage hs).mp hc
      exact w.report_site hSize ha hb hSeverity hCandidate hne hs
    next => rfl

variable {f : Finding}

/-- Two creations with one finding are one. -/
theorem eq_created (ha : a.Of w.source) (hf : a.findingAt? w.created = some f)
    (hx : .expr x ∈ (SyntaxTree.ofUnit (parseSource w.source).1).walk)
    (h : a.findingAt? x = some f) : x = w.created := by
  have hSpan : x.span = w.created.span :=
    (ha.allocationSpan_eq h).symm.trans (ha.allocationSpan_eq hf)
  exact w.candidate.eq_of_start w.fits.2 hx (congrArg Span.start hSpan)

theorem unsorted_edited (hSize : Text.byteSize w.source < 2147483648) (ha : a.Of w.source)
    (hb : b.Of w.edited) (hSeverity : b.severity = a.severity)
    (hf : a.findingAt? w.created = some f) :
    b.model.tree.arrayCreations.filterMap b.findingAt? =
      ((a.model.tree.arrayCreations.filterMap a.findingAt?).filter (· ≠ f)).map
        (w.finding w.source w.edited) := by
  have hOld : a.model.tree = .ofUnit (parseSource w.source).1 := by
    rw [ha.model]
    rfl
  have hNew : b.model.tree = .ofUnit (w.unit (parseSource w.source).1) := by
    rw [hb.model]
    exact congrArg (SyntaxTree.ofUnit ·.1) w.parsed
  have hCreations : (SyntaxTree.ofUnit (w.unit (parseSource w.source).1)).arrayCreations = _ :=
    w.arrayCreations_unit w.candidate w.fits.2
  rw [hNew, hOld, hCreations, List.filterMap_map, List.filterMap_filter, List.filter_filterMap,
    List.map_filterMap]
  apply List.filterMap_congr
  intro x hx
  obtain ⟨hx, _⟩ := SyntaxTree.mem_arrayCreations.mp hx
  by_cases hne : x = w.created
  · rw [hne, if_neg (by simp), hf, Option.filter_some, if_neg (by simp)]
    rfl
  · have hId : (x.id != w.created.id) = true :=
      bne_iff_ne.mpr fun hId => hne (w.candidate.eq_of_id hx hId)
    rw [if_pos hId, Function.comp_apply, w.findingAt?_edited hSize ha hb hSeverity hx hne]
    cases hy : a.findingAt? x with
    | none => rfl
    | some y =>
      have hy' : y ≠ f := by
        rintro rfl
        exact hne (w.eq_created ha hf hx hy)
      rw [Option.filter_some, if_pos (decide_eq_true hy')]

/-- The finding about the candidate is the only one that is gone. -/
theorem findings_edited (hSize : Text.byteSize w.source < 2147483648) (ha : a.Of w.source)
    (hb : b.Of w.edited) (hSeverity : b.severity = a.severity)
    (hf : a.findingAt? w.created = some f) :
    b.findings = (a.findings.filter (· ≠ f)).map (w.finding w.source w.edited) := by
  unfold Analysis.findings
  rw [w.unsorted_edited hSize ha hb hSeverity hf, ← mergeSort_filter, List.map_mergeSort]
  · intro x _ y _
    simp only [Respelling.finding, Respelling.span, w.shift_le_shift]
  · intro x y z hxy hyz
    simp only [decide_eq_true_eq] at *
    exact Nat.le_trans hxy hyz
  · intro x y
    simp only [Bool.or_eq_true, decide_eq_true_eq]
    exact Nat.le_total _ _

end Edit

end Stackable
