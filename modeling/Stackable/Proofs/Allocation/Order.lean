import Stackable.Proofs.Allocation.Findings
import Stackable.Proofs.Shape.Decl

/-!
# The order of findings

Array creations are met on a walk over the tree, and findings are sorted by where they are
reported: at the creation itself, or at the `=` in front of it. Both orders are the same, since a
creation starts in front of its sizes and elements, and an expression that ends in front of the
initial value of a local has ended before the name.
-/

set_option autoImplicit false

namespace Stackable

section Starts

variable {source : List Char} {e : Expr} {d : Declarator} {i : Initializer}

/-- A creation starts in front of all that follows it on a walk. -/
theorem start_lt_of_creation {element : TypeRef} {ranks : List (RankSpecifier Expr)}
    {initializer : Option (List Expr)} {x : Node}
    (he : .expr e ∈ (SyntaxTree.ofUnit (parseSource source).1).walk)
    (hKind : e.kind = .arrayCreation element ranks initializer) (hne : .expr e ≠ x)
    (h : (Node.expr e).BelowOrBehind x) : e.span.start < x.span.start := by
  rcases h with hBelow | hBehind
  · have hProper := (Node.mem_descend_iff.mp hBelow).resolve_left hne.symm
    obtain ⟨c, hc, hx⟩ := Node.mem_descendants.mp hProper
    have hStart := (span_of_mem_descend (Lineage.child_mem_walk he hc) hx).1
    obtain ⟨operand, hOperand, rfl⟩ := List.mem_map.mp hc
    have form : e.kind.Formed e.span.start := (Expr.formed_iff.mp (formed_of_mem_walk he)).1
    rw [hKind] at form hOperand
    exact Nat.lt_of_lt_of_le (form.behind operand hOperand) hStart
  · exact Nat.lt_of_lt_of_le (span_start_lt_stop he) hBehind

theorem marked_of_mem_walk
    (hd : .declarator d ∈ (SyntaxTree.ofUnit (parseSource source).1).walk) : d.Marked :=
  (Node.formed_iff.mp (formed_of_mem_walk hd)).1

/-- An expression that ends in front of the initial value has ended before the name. -/
theorem stop_le_declarator (he : .expr e ∈ (SyntaxTree.ofUnit (parseSource source).1).walk)
    (hd : .declarator d ∈ (SyntaxTree.ofUnit (parseSource source).1).walk) (hi : d.init = some i)
    (h : e.span.stop ≤ i.value.span.start) : e.span.stop ≤ d.span.start := by
  have hChildren : (Node.declarator d).children = [.expr i.value] := by simp [Node.children, hi]
  have hChild : .expr i.value ∈ (Node.declarator d).children := hChildren ▸ List.mem_cons_self
  have hValue := Lineage.child_mem_walk hd hChild
  have hWidth : e.span.start < e.span.stop := span_start_lt_stop he
  rcases nestedOrApart_of_mem_walk he hd with (hNested | hNested) | hBefore | hBehind
  · obtain ⟨y, hy⟩ := Node.exists_expr_of_mem_descend hNested
    cases hy
  · rw [Node.descend_eq_cons, hChildren, List.flatMap_singleton] at hNested
    have hBelow := (List.mem_cons.mp hNested).resolve_left (by simp)
    have hStart : i.value.span.start ≤ e.span.start := (span_of_mem_descend hValue hBelow).1
    omega
  · exact hBefore
  · have hBehind : d.span.stop ≤ e.span.start := hBehind
    have hValueWidth : i.value.span.start < i.value.span.stop := span_start_lt_stop hValue
    have hInside := Node.children_mem_descend (Node.declarator d).mem_descend_self hChild
    have hStop : i.value.span.stop ≤ d.span.stop := (span_of_mem_descend hd hInside).2
    omega

end Starts

namespace Analysis

variable {a : Analysis} {source : List Char} {e e' : Expr} {f f' : Finding}

/-- A finding is at the creation, or at the `=` of the local that starts with it. -/
theorem span_of_findingAt? (ha : a.model = .ofUnit (parseSource source).1)
    (he : .expr e ∈ (SyntaxTree.ofUnit (parseSource source).1).walk) (h : a.findingAt? e = some f) :
    f.span = e.span ∨ ∃ d i, .declarator d ∈ (SyntaxTree.ofUnit (parseSource source).1).walk ∧
      d.init = some i ∧ i.value = e ∧ f.span = i.mark := by
  obtain ⟨s, hs, hReports⟩ := exists_site h
  obtain ⟨hExpr, _, hLocal⟩ := Site.ofExpr?_fields hs
  obtain ⟨around, hLineage⟩ := Lineage.mem_walk_iff.mp he
  have hAround : a.model.tree.ancestors e.id = around := by
    rw [ha]
    exact hLineage.ancestors_eq (numbered_parseSource source)
  rw [hReports.span, Site.mark, hLocal, hAround, hExpr]
  cases hBound : Site.boundLocal? around with
  | none => exact .inl rfl
  | some d =>
    obtain ⟨st, l, outer, rfl, _⟩ := Site.boundLocal?_eq_some.mp hBound
    obtain ⟨hd, hChild⟩ := hLineage.parent
    obtain ⟨i, hi, hValue⟩ : ∃ i, d.init = some i ∧ i.value = e := by
      simpa [Node.children, Option.mem_toList] using hChild
    refine .inr ⟨d, i, Lineage.mem_walk_iff.mpr ⟨_, hd⟩, hi, hValue, ?_⟩
    rw [Option.bind_some, hi]
    rfl

theorem start_le_of_findingAt? (ha : a.model = .ofUnit (parseSource source).1)
    (he : .expr e ∈ (SyntaxTree.ofUnit (parseSource source).1).walk) (h : a.findingAt? e = some f) :
    f.span.start ≤ e.span.start := by
  rcases span_of_findingAt? ha he h with hSpan | ⟨d, i, hd, hi, rfl, hSpan⟩
  · exact Nat.le_of_eq (congrArg Span.start hSpan)
  · rw [hSpan]
    exact Nat.le_of_lt (marked_of_mem_walk hd i hi).2

/-- Of two allocations the one that a walk meets first is reported first. -/
theorem start_lt_of_findingAt? (ha : a.model = .ofUnit (parseSource source).1)
    (he : .expr e ∈ (SyntaxTree.ofUnit (parseSource source).1).walk)
    (he' : .expr e' ∈ (SyntaxTree.ofUnit (parseSource source).1).walk) (hne : Node.expr e ≠ .expr e')
    (hOrder : (Node.expr e).BelowOrBehind (.expr e')) (h : a.findingAt? e = some f)
    (h' : a.findingAt? e' = some f') :
    f.span.start < f'.span.start ∧ f.allocationSpan.start < f'.allocationSpan.start := by
  obtain ⟨s, hs, hReports⟩ := exists_site h
  obtain ⟨s', hs', hReports'⟩ := exists_site h'
  obtain ⟨element, ranks, initializer, hKind⟩ := Site.exists_kind hs
  have hStarts : e.span.start < e'.span.start := start_lt_of_creation he hKind hne hOrder
  have hFirst := start_le_of_findingAt? ha he h
  constructor
  · rcases span_of_findingAt? ha he' h' with hSpan | ⟨d, i, hd, hi, rfl, hSpan⟩
    · rw [hSpan]
      exact Nat.lt_of_le_of_lt hFirst hStarts
    · have hApart : e.span.stop ≤ i.value.span.start := by
        refine hOrder.resolve_left fun hBelow => hne ?_
        obtain ⟨outer, hOuter⟩ := Lineage.mem_walk_iff.mp he
        obtain ⟨around, hAround⟩ := Lineage.mem_walk_iff.mp hd
        have hChild : .expr i.value ∈ (Node.declarator d).children := by simp [Node.children, hi]
        exact ((hAround.child hChild).eq_of_mem_descend (numbered_parseSource source) hOuter
          hBelow).symm
      rw [hSpan]
      have hWidth : e.span.start < e.span.stop := span_start_lt_stop he
      calc f.span.start ≤ e.span.start := hFirst
        _ < e.span.stop := hWidth
        _ ≤ d.span.start := stop_le_declarator he hd hi hApart
        _ < i.mark.start := (marked_of_mem_walk hd i hi).1
  · rw [hReports.allocationSpan, hReports'.allocationSpan, (Site.ofExpr?_fields hs).1,
      (Site.ofExpr?_fields hs').1]
    exact hStarts

/-- What a node reports: nothing unless it is an allocation. -/
def findingAtNode? (a : Analysis) (n : Node) : Option Finding := n.expr?.bind a.findingAt?

theorem filterMap_arrayCreations (a : Analysis) (t : SyntaxTree) :
    t.arrayCreations.filterMap a.findingAt? = t.walk.filterMap a.findingAtNode? := by
  unfold SyntaxTree.arrayCreations
  rw [List.filterMap_filterMap]
  congr 1
  funext n
  split
  next => rfl
  next hOther =>
    cases n with
    | expr e =>
      cases h : a.findingAt? e with
      | none => exact h.symm
      | some f =>
        obtain ⟨s, hs, _⟩ := exists_site h
        obtain ⟨element, ranks, initializer, hKind⟩ := Site.exists_kind hs
        obtain ⟨id, kind, span⟩ := e
        cases hKind
        exact absurd rfl (hOther _ _ _ _ _)
    | _ => rfl

theorem pairwise_findingAtNode? (ha : a.model = .ofUnit (parseSource source).1) :
    (a.model.tree.walk.filterMap a.findingAtNode?).Pairwise fun f g =>
      f.span.start < g.span.start ∧ f.allocationSpan.start < g.allocationSpan.start := by
  have hDistinct : (SyntaxTree.ofUnit (parseSource source).1).walk.Pairwise (· ≠ ·) :=
    (numbered_parseSource source).of_map
  rw [ha, List.pairwise_filterMap]
  refine ((pairwise_belowOrBehind source).and hDistinct).imp_of_mem ?_
  rintro n n' hn hn' ⟨hOrder, hne⟩ f hf f' hf'
  obtain ⟨e, he, h⟩ := Option.bind_eq_some_iff.mp hf
  obtain ⟨e', he', h'⟩ := Option.bind_eq_some_iff.mp hf'
  cases n with
  | expr =>
    cases n' with
    | expr =>
      cases he
      cases he'
      exact start_lt_of_findingAt? ha hn hn' hne hOrder h h'
    | _ => cases he'
  | _ => cases he

end Analysis

/-- Whatever the options and the prover, the findings are what the nodes of a walk report, one
after the other: the sort moves nothing. Each one is reported behind the one before, and no
allocation is reported twice. -/
theorem findings_follow_walk (source : List Char) (allowUnsafe : Bool) (severity : Severity)
    (prover : EscapeProver) :
    let a : Analysis :=
      ⟨.ofUnit (parseSource source).1, .ofSource source, allowUnsafe, severity, prover⟩
    a.findings = (SyntaxTree.ofUnit (parseSource source).1).walk.filterMap a.findingAtNode? ∧
    a.findings.Pairwise (fun f g => f.span.start < g.span.start) ∧
    (a.findings.map (·.allocationSpan)).Nodup := by
  intro a
  have hModel : a.model = .ofUnit (parseSource source).1 := rfl
  have hOrder := Analysis.pairwise_findingAtNode? hModel
  have hFindings : a.findings = a.model.tree.walk.filterMap a.findingAtNode? := by
    unfold Analysis.findings
    rw [Analysis.filterMap_arrayCreations]
    exact List.mergeSort_of_pairwise (hOrder.imp fun h => by simpa using Nat.le_of_lt h.1)
  rw [hFindings]
  refine ⟨rfl, hOrder.imp And.left, List.pairwise_map.mpr (hOrder.imp ?_)⟩
  intro f g h hSame
  exact Nat.ne_of_lt h.2 (congrArg Span.start hSame)

end Stackable
