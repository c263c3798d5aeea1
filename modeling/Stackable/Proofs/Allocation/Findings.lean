import Mathlib.Data.List.Perm.Basic
import Stackable.Analysis
import Stackable.Proofs.Parser.Extent

/-!
# What is reported

`StackCandidate` says in terms of the syntax alone, going down from nodes to their children, which
array creations could live on the stack. The findings in a source without errors are these, each
of them once.
-/

set_option autoImplicit false

namespace Stackable

/-- A value leaves the frame at a node: it is returned, passed or assigned. -/
inductive Exposes : Node → Expr → Prop where
  | ret {id : NodeId} {value : Expr} {span : Span} :
      Exposes (.stmt ⟨id, .ret (some value), span⟩) value
  | call {id : NodeId} {callee : Expr} {args : List (Argument Expr)} {span : Span}
      {a : Argument Expr} (h : a ∈ args) : Exposes (.expr ⟨id, .invocation callee args, span⟩) a.expr
  | construction {id : NodeId} {type : Option TypeRef} {args : List (Argument Expr)}
      {initializer : Option (List Expr)} {span : Span} {a : Argument Expr} (h : a ∈ args) :
      Exposes (.expr ⟨id, .objectCreation type args initializer, span⟩) a.expr
  | assignment {id : NodeId} {op : AssignOp} {target value : Expr} {span : Span} :
      Exposes (.expr ⟨id, .assign op target value, span⟩) value

/-- The nodes in which code stands: members and accessors. -/
def Node.isFrame : Node → Bool
  | .member _ | .accessor _ => true
  | _ => false

/-- An array creation that is the whole initial value of a local, stands in a synchronous method
or constructor outside any loop, has a small size, and whose local leaves the frame nowhere in the
function. -/
def StackCandidate (unit : CompilationUnit) (e : Expr) : Prop :=
  ∃ (d : Declarator) (st : Stmt) (l : LocalDecl) (inner outer : List Node) (m : Member)
    (f : Function) (s : Site) (bytes : Nat),
    Lineage unit (.expr e) (.declarator d :: .stmt st :: inner ++ .member m :: outer) ∧
    st.kind = .localDecl l ∧
    (∀ n ∈ inner, n.isFrame = false ∧ n.isLoop = false) ∧
    m.function? = some f ∧ .asyncMod ∉ f.modifiers ∧
    Site.ofExpr? (.ofUnit unit) e = some s ∧ s.size (.ofUnit unit) = .sized bytes ∧
    ∀ n ∈ (Node.member m).descendants, ∀ v, Exposes n v →
      v.unparenthesized.ident? ≠ some d.name

namespace Site

theorem enclosingFunction?_eq_some {around : List Node} {f : Function} :
    enclosingFunction? around = some f ↔ ∃ inner m outer, around = inner ++ .member m :: outer ∧
      (∀ n ∈ inner, n.isFrame = false) ∧ m.function? = some f := by
  constructor
  · intro h
    fun_induction enclosingFunction? around with
    | case1 | case2 => cases h
    | case3 m outer => exact ⟨[], m, outer, rfl, by simp, h⟩
    | case4 n around hAccessor hMember ih =>
      obtain ⟨inner, m, outer, rfl, hInner, hm⟩ := ih h
      refine ⟨n :: inner, m, outer, rfl, List.forall_mem_cons.mpr ⟨?_, hInner⟩, hm⟩
      cases n with
      | accessor a => exact absurd rfl (hAccessor a)
      | member m => exact absurd rfl (hMember m)
      | decl | declarator | stmt | expr => rfl
  · rintro ⟨inner, m, outer, rfl, hInner, hm⟩
    induction inner with
    | nil => exact hm
    | cons n inner ih =>
      obtain ⟨hn, hRest⟩ := List.forall_mem_cons.mp hInner
      cases n with
      | accessor | member => cases hn
      | decl | declarator | stmt | expr => exact ih hRest

theorem boundLocal?_eq_some {around : List Node} {d : Declarator} :
    boundLocal? around = some d ↔ ∃ st l outer, around = .declarator d :: .stmt st :: outer ∧
      st.kind = .localDecl l := by
  constructor
  · intro h
    unfold boundLocal? at h
    split at h
    · cases h
      exact ⟨_, _, _, rfl, rfl⟩
    · cases h
  · rintro ⟨⟨id, kind, span⟩, l, outer, rfl, rfl⟩
    rfl

theorem function_and_local {around : List Node} {f : Function} {d : Declarator} :
    enclosingFunction? around = some f ∧ boundLocal? around = some d ↔
      ∃ st l inner m outer, around = .declarator d :: .stmt st :: inner ++ .member m :: outer ∧
        st.kind = .localDecl l ∧ (∀ n ∈ inner, n.isFrame = false) ∧ m.function? = some f := by
  rw [enclosingFunction?_eq_some, boundLocal?_eq_some]
  constructor
  · rintro ⟨⟨inner, m, outer, rfl, hInner, hm⟩, st, l, outer', h, hst⟩
    match inner, hInner, h with
    | .declarator _ :: .stmt _ :: inner, hInner, rfl =>
      exact ⟨st, l, inner, m, outer, rfl, hst, fun n hn => hInner n (by simp [hn]), hm⟩
  · rintro ⟨st, l, inner, m, outer, rfl, hst, hInner, hm⟩
    refine ⟨⟨.declarator d :: .stmt st :: inner, m, outer, rfl, ?_, hm⟩, st, l, _, rfl, hst⟩
    exact List.forall_mem_cons.mpr ⟨rfl, List.forall_mem_cons.mpr ⟨rfl, hInner⟩⟩

end Site

theorem Argument.passesName_iff {name : String} {args : List (Argument Expr)} :
    Argument.passesName name args = true ↔ ∃ a ∈ args, a.expr.isName name = true := by
  unfold passesName
  exact List.any_eq_true

theorem Node.exposesName_iff {name : String} (n : Node) :
    n.returnsName name = true ∨ n.callsWithName name = true ∨ n.constructsWithName name = true ∨
      n.assignsName name = true ↔ ∃ v, Exposes n v ∧ v.isName name = true := by
  constructor
  · rintro (h | h | h | h)
    · unfold returnsName at h
      split at h
      · exact ⟨_, .ret, h⟩
      · cases h
    · unfold callsWithName at h
      split at h
      · obtain ⟨a, ha, h⟩ := Argument.passesName_iff.mp h
        exact ⟨_, .call ha, h⟩
      · cases h
    · unfold constructsWithName at h
      split at h
      · obtain ⟨a, ha, h⟩ := Argument.passesName_iff.mp h
        exact ⟨_, .construction ha, h⟩
      · cases h
    · unfold assignsName at h
      split at h
      · exact ⟨_, .assignment, h⟩
      · cases h
  · rintro ⟨v, hv, h⟩
    cases hv with
    | ret => exact .inl h
    | call ha => exact .inr (.inl (Argument.passesName_iff.mpr ⟨_, ha, h⟩))
    | construction ha => exact .inr (.inr (.inl (Argument.passesName_iff.mpr ⟨_, ha, h⟩)))
    | assignment => exact .inr (.inr (.inr h))

theorem EscapeEvidence.escapes_ofNodes {name : String} {ns : List Node} :
    (EscapeEvidence.ofNodes name ns).escapes = false ↔
      ∀ n ∈ ns, ∀ v, Exposes n v → v.unparenthesized.ident? ≠ some name := by
  have exposed : (EscapeEvidence.ofNodes name ns).escapes = true ↔
      ∃ n ∈ ns, ∃ v, Exposes n v ∧ v.isName name = true := by
    simp only [escapes, ofNodes, Bool.or_eq_true, List.any_eq_true, ← Node.exposesName_iff]
    grind
  rw [← Bool.not_eq_true, exposed]
  simp [Expr.isName]

/-- The local is known and confined to the function around it. -/
theorem Site.escape_eq_confined {s : Site} :
    s.escape = .confined ↔ ∃ d f, s.localVar = some d ∧ s.function = some f ∧
      ∀ n ∈ (Node.member f.member).descendants, ∀ v, Exposes n v →
        v.unparenthesized.ident? ≠ some d.name := by
  unfold escape
  split
  next d f hd hf =>
    rw [hd, hf]
    dsimp only
    split
    next h =>
      simp only [reduceCtorEq, Option.some.injEq, exists_and_left, exists_eq_left', false_iff]
      rw [← EscapeEvidence.escapes_ofNodes, h]
      simp
    next h =>
      simp only [Option.some.injEq, exists_and_left, exists_eq_left', true_iff]
      rw [← EscapeEvidence.escapes_ofNodes]
      simpa using h
  next h =>
    simp only [reduceCtorEq, false_iff]
    rintro ⟨d, f, hd, hf, _⟩
    exact h d f hd hf

theorem takeWhile_ancestors {unit : CompilationUnit} (hu : unit.Numbered) {n : Node} {m : Member}
    {inner outer : List Node} (h : Lineage unit n (inner ++ .member m :: outer))
    (hInner : ∀ x ∈ inner, x.isFrame = false) :
    ((SyntaxTree.ofUnit unit).ancestors n.id).takeWhile (·.id != m.id) = inner := by
  have distinct : ∀ x ∈ inner, (x.id != m.id) = true := by
    intro x hx
    obtain ⟨before, after, rfl⟩ := List.append_of_mem hx
    have hm := h.outward.1
    rw [List.append_assoc, List.cons_append] at h
    rw [bne_iff_ne]
    intro hid
    obtain ⟨rfl, _⟩ := h.outward.1.unique hu hm hid
    cases hInner _ hx
  rw [h.ancestors_eq hu, List.takeWhile_append_of_pos distinct,
    List.takeWhile_cons_of_neg (by simp [Node.id]), List.append_nil]

theorem Site.context_eq_eligible {unit : CompilationUnit} (hu : unit.Numbered) {s : Site}
    {f : Function} {m : Member} {inner outer : List Node}
    (h : Lineage unit (.expr s.expr) (inner ++ .member m :: outer))
    (hInner : ∀ x ∈ inner, x.isFrame = false) (hm : m.function? = some f)
    (hf : s.function = some f) :
    s.context (.ofUnit unit) = .eligible ↔
      .asyncMod ∉ f.modifiers ∧ ∀ x ∈ inner, x.isLoop = false := by
  have loop : s.isInLoop (.ofUnit unit) f = inner.any Node.isLoop := by
    unfold isInLoop
    rw [m.member_of_function? hm]
    exact congrArg (·.any Node.isLoop) (takeWhile_ancestors hu h hInner)
  unfold context
  rw [hf]
  dsimp only
  rw [loop]
  split
  next hAsync =>
    simp only [reduceCtorEq, false_iff]
    exact fun h => h.1 (by simpa using hAsync)
  next hAsync =>
    split
    next hLoop => simpa using fun _ => hLoop
    next hLoop => simpa using ⟨by simpa using hAsync, by simpa using hLoop⟩

/-! ## Findings -/

theorem Analysis.isCandidate_iff {a : Analysis} {s : Site} :
    a.isCandidate s = true ↔ s.context a.model.tree = .eligible ∧
      (∃ bytes, s.size a.model = .sized bytes) ∧ a.prover s = .confined := by
  unfold isCandidate
  split
  next hContext hSize hEscape => simp [hContext, hSize, hEscape]
  next h =>
    simp only [Bool.false_eq_true, false_iff]
    rintro ⟨hContext, ⟨bytes, hSize⟩, hEscape⟩
    exact h bytes hContext hSize hEscape

theorem Site.ofExpr?_fields {m : Model} {e : Expr} {s : Site} (h : Site.ofExpr? m e = some s) :
    s.expr = e ∧ s.function = enclosingFunction? (m.tree.ancestors e.id) ∧
      s.localVar = boundLocal? (m.tree.ancestors e.id) := by
  unfold ofExpr? at h
  split at h
  · cases h
    exact ⟨rfl, rfl, rfl⟩
  · cases h

theorem Site.exists_kind {m : Model} {e : Expr} {s : Site} (h : Site.ofExpr? m e = some s) :
    ∃ element ranks initializer, e.kind = .arrayCreation element ranks initializer := by
  unfold ofExpr? at h
  split at h
  · exact ⟨_, _, _, ‹_›⟩
  · cases h

/-- The stages accept a site exactly if its expression is a candidate. -/
theorem Site.passes_iff {unit : CompilationUnit} (hu : unit.Numbered) {e : Expr} {s : Site}
    {around : List Node} (h : Lineage unit (.expr e) around)
    (hs : Site.ofExpr? (.ofUnit unit) e = some s) :
    s.context (.ofUnit unit) = .eligible ∧ (∃ bytes, s.size (.ofUnit unit) = .sized bytes) ∧
      s.escape = .confined ↔ StackCandidate unit e := by
  obtain ⟨hExpr, hFunction, hLocal⟩ := Site.ofExpr?_fields hs
  have hAround : (Model.ofUnit unit).tree.ancestors e.id = around := h.ancestors_eq hu
  rw [hAround] at hFunction hLocal
  subst hExpr
  constructor
  · rintro ⟨hContext, ⟨bytes, hSize⟩, hEscape⟩
    obtain ⟨d, f, hd, hf, hConfined⟩ := Site.escape_eq_confined.mp hEscape
    rw [hFunction] at hf
    rw [hLocal] at hd
    obtain ⟨st, l, inner, m, outer, rfl, hst, hInner, hm⟩ := Site.function_and_local.mp ⟨hf, hd⟩
    have hFrames : ∀ x ∈ .declarator d :: .stmt st :: inner, x.isFrame = false :=
      List.forall_mem_cons.mpr ⟨rfl, List.forall_mem_cons.mpr ⟨rfl, hInner⟩⟩
    obtain ⟨hAsync, hLoops⟩ :=
      (Site.context_eq_eligible hu h hFrames hm (hFunction.trans hf)).mp hContext
    rw [m.member_of_function? hm] at hConfined
    exact ⟨d, st, l, inner, outer, m, f, s, bytes, h, hst,
      fun n hn => ⟨hInner n hn, hLoops n (by simp [hn])⟩, hm, hAsync, hs, hSize, hConfined⟩
  · rintro ⟨d, st, l, inner, outer, m, f, s', bytes, h', hst, hInner, hm, hAsync, hs', hSize,
      hConfined⟩
    obtain rfl : s = s' := Option.some.inj (hs.symm.trans hs')
    obtain ⟨_, rfl⟩ := h.unique hu h' rfl
    obtain ⟨hf, hd⟩ := Site.function_and_local.mpr
      ⟨st, l, inner, m, outer, rfl, hst, fun n hn => (hInner n hn).1, hm⟩
    have hFrames : ∀ x ∈ .declarator d :: .stmt st :: inner, x.isFrame = false :=
      List.forall_mem_cons.mpr
        ⟨rfl, List.forall_mem_cons.mpr ⟨rfl, fun n hn => (hInner n hn).1⟩⟩
    have hLoops : ∀ x ∈ .declarator d :: .stmt st :: inner, x.isLoop = false := by
      refine List.forall_mem_cons.mpr ⟨rfl, List.forall_mem_cons.mpr ⟨?_, fun n hn =>
        (hInner n hn).2⟩⟩
      simp only [Node.isLoop, hst]
    refine ⟨(Site.context_eq_eligible hu h hFrames hm (hFunction.trans hf)).mpr ⟨hAsync, hLoops⟩,
      ⟨bytes, hSize⟩, Site.escape_eq_confined.mpr ⟨d, f, hLocal.trans hd, hFunction.trans hf, ?_⟩⟩
    rw [m.member_of_function? hm]
    exact hConfined

/-- Where a site is reported: at the `=` in front of it, or where it starts itself. -/
def Site.mark (s : Site) : Span := ((s.localVar.bind (·.init)).map (·.mark)).getD s.expr.span

/-- What the finding at a site says. -/
structure Finding.Reports (f : Finding) (a : Analysis) (s : Site) : Prop where
  allocation : s.expr.span.text? a.lines.source = some f.allocation.toList
  message : f.message = Rule.finding f.allocation
  span : f.span = s.mark
  allocationSpan : f.allocationSpan = s.expr.span
  location : f.location = a.location f.span

theorem Analysis.exists_site {a : Analysis} {e : Expr} {f : Finding}
    (h : a.findingAt? e = some f) : ∃ s, Site.ofExpr? a.model e = some s ∧ f.Reports a s := by
  unfold findingAt? at h
  split at h
  next =>
    obtain ⟨s, hs, h⟩ := Option.bind_eq_some_iff.mp h
    split at h
    next =>
      obtain ⟨text, hText, rfl⟩ := Option.map_eq_some_iff.mp h
      refine ⟨s, hs, ?_, rfl, rfl, rfl, rfl⟩
      rw [String.toList_ofList]
      exact hText
    next => cases h
  next => cases h

/-- An analysis of a unit in which every stage is at work. -/
structure Analysis.Of (a : Analysis) (source : List Char) : Prop where
  model : a.model = .ofUnit (parseSource source).1
  lines : a.lines = .ofSource source
  allowUnsafe : a.allowUnsafe = true
  prover : a.prover = Site.escape

namespace Analysis.Of

variable {a : Analysis} {source : List Char} {e : Expr}

theorem isSome_findingAt? (ha : a.Of source)
    (he : .expr e ∈ (SyntaxTree.ofUnit (parseSource source).1).walk) :
    (a.findingAt? e).isSome ↔ StackCandidate (parseSource source).1 e := by
  obtain ⟨around, h⟩ := Lineage.mem_walk_iff.mp he
  have hu := numbered_parseSource source
  unfold findingAt?
  rw [if_pos ha.allowUnsafe, ha.model]
  cases hs : Site.ofExpr? (.ofUnit (parseSource source).1) e with
  | none =>
    simp only [Option.bind_none, Option.isSome_none, Bool.false_eq_true, false_iff]
    rintro ⟨_, _, _, _, _, _, _, s, _, _, _, _, _, _, hs', _⟩
    rw [hs] at hs'
    cases hs'
  | some s =>
    have hText : (a.report s).isSome := by
      unfold report
      rw [Option.isSome_map, (Site.ofExpr?_fields hs).1, ha.lines]
      exact isSome_text? he
    rw [← Site.passes_iff hu h hs, Option.bind_some]
    have hCandidate := Analysis.isCandidate_iff (a := a) (s := s)
    rw [ha.model, ha.prover] at hCandidate
    change _ ↔ s.context (Model.ofUnit _).tree = _ ∧ _
    rw [← hCandidate]
    split
    next hc => simp [hc, hText]
    next hc => simp [hc]

theorem allocationSpan_eq (_ : a.Of source) {x : Finding} (h : a.findingAt? e = some x) :
    x.allocationSpan = e.span := by
  obtain ⟨s, hs, hx⟩ := Analysis.exists_site h
  rw [hx.allocationSpan, (Site.ofExpr?_fields hs).1]

theorem allocation_eq (ha : a.Of source) {x : Finding} (h : a.findingAt? e = some x) :
    e.span.text? source = some x.allocation.toList := by
  obtain ⟨s, hs, hx⟩ := Analysis.exists_site h
  have hText := hx.allocation
  rwa [(Site.ofExpr?_fields hs).1, ha.lines] at hText

end Analysis.Of

theorem Analysis.findings_of_safe {a : Analysis} (h : a.allowUnsafe = false) : a.findings = [] := by
  unfold findings
  have : a.model.tree.arrayCreations.filterMap a.findingAt? = [] := by
    rw [List.filterMap_eq_nil_iff]
    intro e _
    unfold findingAt?
    rw [h, if_neg Bool.false_ne_true]
  rw [this, List.mergeSort_nil]

theorem SyntaxTree.mem_arrayCreations {t : SyntaxTree} {e : Expr} :
    e ∈ t.arrayCreations ↔ .expr e ∈ t.walk ∧
      ∃ element ranks initializer, e.kind = .arrayCreation element ranks initializer := by
  unfold arrayCreations
  rw [List.mem_filterMap]
  constructor
  · rintro ⟨n, hn, h⟩
    split at h
    · cases h
      exact ⟨hn, _, _, _, rfl⟩
    · cases h
  · rintro ⟨hn, element, ranks, initializer, hKind⟩
    obtain ⟨id, kind, span⟩ := e
    obtain rfl : kind = _ := hKind
    exact ⟨_, hn, rfl⟩

theorem SyntaxTree.sublist_arrayCreations (t : SyntaxTree) :
    (t.arrayCreations.map (·.id)).Sublist (t.walk.map Node.id) := by
  unfold arrayCreations
  induction t.walk with
  | nil => exact .slnil
  | cons n ns ih =>
    rw [List.filterMap_cons, List.map_cons]
    split
    next h => exact ih.cons _
    next e h =>
      split at h
      · cases h
        exact ih.cons_cons _
      · cases h

theorem filterMap_map_eq {a : Analysis} {source : List Char} (ha : a.Of source) (es : List Expr) :
    (es.filterMap a.findingAt?).map (·.allocationSpan) =
      (es.filter fun e => (a.findingAt? e).isSome).map (·.span) := by
  induction es with
  | nil => rfl
  | cons e es ih =>
    rw [List.filterMap_cons, List.filter_cons]
    cases h : a.findingAt? e with
    | none => exact ih
    | some x => simpa [ha.allocationSpan_eq h] using ih

theorem Analysis.Of.exists_candidates {a : Analysis} {source : List Char} (ha : a.Of source) :
    ∃ es : List Expr, (es.map (·.id)).Nodup ∧
      (∀ e, e ∈ es ↔ StackCandidate (parseSource source).1 e) ∧
      (a.findings.map (·.allocationSpan)).Perm (es.map (·.span)) := by
  have hTree : a.model.tree = .ofUnit (parseSource source).1 := by
    rw [ha.model]
    rfl
  refine ⟨a.model.tree.arrayCreations.filter fun e => (a.findingAt? e).isSome, ?_, fun e => ?_, ?_⟩
  · have hu := numbered_parseSource source
    rw [hTree]
    refine List.Nodup.sublist ?_ hu
    exact (List.filter_sublist.map _).trans (SyntaxTree.sublist_arrayCreations _)
  · rw [List.mem_filter, SyntaxTree.mem_arrayCreations, hTree]
    constructor
    · rintro ⟨⟨he, _⟩, hSome⟩
      exact (ha.isSome_findingAt? he).mp hSome
    · intro hc
      obtain ⟨d, st, l, inner, outer, m, f, s, bytes, h, _, _, _, _, hs, _⟩ := id hc
      have he := Lineage.mem_walk_iff.mpr ⟨_, h⟩
      refine ⟨⟨he, ?_⟩, (ha.isSome_findingAt? he).mpr hc⟩
      unfold Site.ofExpr? at hs
      split at hs
      · exact ⟨_, _, _, ‹_›⟩
      · cases hs
  · rw [← filterMap_map_eq ha]
    exact (List.mergeSort_perm _ _).map _

/-- A source that cannot be read, a rule that does not run or code that must be safe give no
finding. Otherwise the findings are about the candidates of the source, each of them once. -/
theorem findings_are_the_candidates (source : List Char) (file : String) (o : Options) :
    if (analyzeSource source file o).isReadable ∧ o.shouldRun Rule.smallArrayOnStack.id ∧
      o.allowUnsafe
    then ∃ es : List Expr, (es.map (·.id)).Nodup ∧
      (∀ e, e ∈ es ↔ StackCandidate (parseSource source).1 e) ∧
      ((analyzeSource source file o).findings.map (·.allocationSpan)).Perm (es.map (·.span))
    else (analyzeSource source file o).findings = [] := by
  have hFindings : (analyzeSource source file o).findings =
      if (analyzeSource source file o).isReadable then
        findingsInUnit source (parseSource source).1 o else [] := rfl
  split
  next h =>
    obtain ⟨hReadable, hRun, hUnsafe⟩ := h
    rw [hFindings, if_pos hReadable]
    unfold findingsInUnit
    rw [if_pos hRun]
    exact Analysis.Of.exists_candidates ⟨rfl, rfl, hUnsafe, rfl⟩
  next h =>
    rw [hFindings]
    split
    next hReadable =>
      unfold findingsInUnit
      split
      next hRun =>
        refine Analysis.findings_of_safe ?_
        exact Bool.eq_false_iff.mpr fun hUnsafe => h ⟨hReadable, hRun, hUnsafe⟩
      next => rfl
    next => rfl

set_option maxRecDepth 10000 in
theorem exists_candidate_of_finding : ∃ e, StackCandidate (parseSource
    "class C{void M(){if(true){var b=new byte[3];b[0]=1;}}}".toList).1 e := by
  have h := findings_are_the_candidates
    "class C{void M(){if(true){var b=new byte[3];b[0]=1;}}}".toList "input.cs" ⟨true, [], [], []⟩
  rw [if_pos (by decide +kernel)] at h
  obtain ⟨es, _, hes, perm⟩ := h
  have hLength : (analyzeSource "class C{void M(){if(true){var b=new byte[3];b[0]=1;}}}".toList
      "input.cs" ⟨true, [], [], []⟩).findings.length = 1 := by decide +kernel
  have hCount := perm.length_eq
  rw [List.length_map, List.length_map, hLength] at hCount
  cases es with
  | nil => cases hCount
  | cons e es => exact ⟨e, (hes e).mp List.mem_cons_self⟩

end Stackable
