import Stackable.Proofs.Allocation.Findings
import Stackable.Proofs.Respelling.Model

/-!
# Sites under a respelling

The creation that becomes one on the stack is no site any more. Every other array creation starts
elsewhere; it remains a site, and all stages judge it as before.
-/

set_option autoImplicit false

namespace Stackable

namespace Respelling

variable (v : Respelling) (u : CompilationUnit)

theorem exprKind_of_ne {start : Nat} (h : start ≠ v.word) (element : TypeRef)
    (ranks : List (RankSpecifier Expr)) (init : Option (List Expr)) :
    v.exprKind start (.arrayCreation element ranks init) =
      .arrayCreation (v.typeRef element) (ranks.map v.rankSpecifier)
        (init.map (·.map v.expr)) := by
  rw [exprKind, exprs?_eq, rankSpecifiers_eq]
  rcases v.creation_cases start (v.typeRef element) (ranks.map v.rankSpecifier)
    (init.map (·.map v.expr)) with ⟨_, _, _, hStart, _⟩ | hKind
  · exact absurd hStart h
  · exact hKind

def site (s : Site) : Site :=
  ⟨v.expr s.expr, v.typeRef s.element, s.ranks.map v.rankSpecifier,
    s.initializer.map (·.map v.expr), s.sizeSpec, s.function.map v.function,
    s.localVar.map v.declarator⟩

theorem enclosingFunction?_map (around : List Node) :
    Site.enclosingFunction? (around.map v.node) =
      (Site.enclosingFunction? around).map v.function := by
  induction around with
  | nil => rfl
  | cons n around ih =>
    cases n with
    | accessor => rfl
    | member m => exact v.function?_member m
    | decl | declarator | stmt | expr => exact ih

theorem boundLocal?_map (around : List Node) :
    Site.boundLocal? (around.map v.node) = (Site.boundLocal? around).map v.declarator := by
  cases around with
  | nil => rfl
  | cons n around =>
    cases n with
    | declarator d =>
      cases around with
      | nil => rfl
      | cons n around =>
        cases n with
        | stmt s =>
          obtain ⟨id, kind, span⟩ := s
          cases kind <;> rfl
        | decl | member | declarator | accessor | expr => rfl
    | decl | member | accessor | stmt | expr => rfl

theorem sizeExpr?_map (ranks : List (RankSpecifier Expr)) :
    Site.sizeExpr? (ranks.map v.rankSpecifier) = (Site.sizeExpr? ranks).map v.expr := by
  unfold Site.sizeExpr?
  cases ranks with
  | nil => rfl
  | cons rank ranks =>
    obtain ⟨sizes, span⟩ := rank
    match sizes with
    | [] | none :: _ => rfl
    | some size :: _ => exact congrArg some (v.unparenthesized_expr size)

theorem sizeSpecOf_unit (ranks : List (RankSpecifier Expr)) :
    Site.sizeSpecOf (.ofUnit (v.unit u)) (ranks.map v.rankSpecifier) =
      Site.sizeSpecOf (.ofUnit u) ranks := by
  unfold Site.sizeSpecOf
  rw [sizeExpr?_map]
  cases Site.sizeExpr? ranks with
  | none => rfl
  | some size =>
    have hConstant := v.isConstantReference_unit u size
    obtain ⟨id, kind, span⟩ := size
    cases kind
    case int value suffix => rfl
    case arrayCreation element ranks init =>
      simp only [Option.map_some, expr, exprKind] at hConstant ⊢
      rcases v.creation_cases span.start (v.typeRef element) (v.rankSpecifiers ranks)
        (v.exprs? init) with ⟨size, _, _, _, h⟩ | h
      · rw [h] at hConstant ⊢
        simp only [hConstant]
      · rw [h] at hConstant ⊢
        simp only [hConstant]
    all_goals
      simp only [Option.map_some, expr, exprKind] at hConstant ⊢
      rw [hConstant]

theorem ofExpr?_unit {e : Expr} (h : e.span.start ≠ v.word) :
    Site.ofExpr? (.ofUnit (v.unit u)) (v.expr e) =
      (Site.ofExpr? (.ofUnit u) e).map v.site := by
  obtain ⟨id, kind, span⟩ := e
  have hAround : (Model.ofUnit (v.unit u)).tree.ancestors id =
      ((Model.ofUnit u).tree.ancestors id).map v.node := v.ancestors_unit u id
  cases kind
  case arrayCreation element ranks init =>
    simp only [Site.ofExpr?, expr, v.exprKind_of_ne h, hAround, enclosingFunction?_map,
      boundLocal?_map, sizeSpecOf_unit, Option.map_some, site]
  all_goals rfl

theorem isLoop_node (n : Node) : (v.node n).isLoop = n.isLoop := by
  cases n with
  | stmt s =>
    obtain ⟨id, kind, span⟩ := s
    cases kind <;> rfl
  | decl | member | declarator | accessor | expr => rfl

theorem context_site (s : Site) : (v.site s).context (.ofUnit (v.unit u)) = s.context (.ofUnit u) := by
  have hLoop : ∀ f, (v.site s).isInLoop (.ofUnit (v.unit u)) (v.function f) =
      s.isInLoop (.ofUnit u) f := by
    intro f
    have hWhile : (fun n : Node => n.id != (v.function f).member.id) ∘ v.node =
        fun n => n.id != f.member.id := by
      funext n
      simp [function]
    unfold Site.isInLoop
    rw [show (v.site s).expr.id = s.expr.id from v.expr_id s.expr, ancestors_unit,
      List.takeWhile_map, hWhile, List.any_map]
    exact congrArg _ (funext v.isLoop_node)
  unfold Site.context
  rw [show (v.site s).function = s.function.map v.function from rfl]
  cases s.function with
  | none => rfl
  | some f =>
    simp only [Option.map_some, hLoop]
    rfl

theorem isName_expr (name : String) (e : Expr) : (v.expr e).isName name = e.isName name := by
  rw [Expr.isName, unparenthesized_expr, ident?_expr, Expr.isName]

theorem passesName_map (name : String) (args : List (Argument Expr)) :
    Argument.passesName name (args.map v.argument) = Argument.passesName name args := by
  rw [Argument.passesName, List.any_map, Argument.passesName]
  apply congrArg
  funext a
  rw [Function.comp_apply, argument_expr, isName_expr]

theorem returnsName_node (name : String) (n : Node) :
    (v.node n).returnsName name = n.returnsName name := by
  cases n with
  | stmt s =>
    obtain ⟨id, kind, span⟩ := s
    cases kind
    case ret value =>
      cases value with
      | none => rfl
      | some value => exact v.isName_expr name value
    all_goals rfl
  | decl | member | declarator | accessor | expr => rfl

theorem callsWithName_node (name : String) (n : Node) :
    (v.node n).callsWithName name = n.callsWithName name := by
  cases n with
  | expr e =>
    obtain ⟨id, kind, span⟩ := e
    cases kind
    case invocation callee args =>
      simp only [node, expr, exprKind, arguments_eq, Node.callsWithName, passesName_map]
    case arrayCreation element ranks init =>
      exact v.expr_creation (P := fun e => (Node.expr e).callsWithName name = false)
        (by intros; rfl) (by intros; rfl) id element ranks init span
    all_goals rfl
  | decl | member | declarator | accessor | stmt => rfl

theorem constructsWithName_node (name : String) (n : Node) :
    (v.node n).constructsWithName name = n.constructsWithName name := by
  cases n with
  | expr e =>
    obtain ⟨id, kind, span⟩ := e
    cases kind
    case objectCreation type args init =>
      simp only [node, expr, exprKind, arguments_eq, Node.constructsWithName, passesName_map]
    case arrayCreation element ranks init =>
      exact v.expr_creation (P := fun e => (Node.expr e).constructsWithName name = false)
        (by intros; rfl) (by intros; rfl) id element ranks init span
    all_goals rfl
  | decl | member | declarator | accessor | stmt => rfl

theorem assignsName_node (name : String) (n : Node) :
    (v.node n).assignsName name = n.assignsName name := by
  cases n with
  | expr e =>
    obtain ⟨id, kind, span⟩ := e
    cases kind
    case assign op target value => exact v.isName_expr name value
    case arrayCreation element ranks init =>
      exact v.expr_creation (P := fun e => (Node.expr e).assignsName name = false)
        (by intros; rfl) (by intros; rfl) id element ranks init span
    all_goals rfl
  | decl | member | declarator | accessor | stmt => rfl

theorem evidence_map (name : String) (ns : List Node) :
    EscapeEvidence.ofNodes name (ns.map v.node) = EscapeEvidence.ofNodes name ns := by
  have same : ∀ {test : Node → Bool}, (∀ n, test (v.node n) = test n) →
      (ns.map v.node).any test = ns.any test := by
    intro test h
    rw [List.any_map]
    exact congrArg _ (funext h)
  rw [EscapeEvidence.ofNodes, same (v.returnsName_node name), same (v.callsWithName_node name),
    same (v.constructsWithName_node name), same (v.assignsName_node name)]
  rfl

theorem escape_site (s : Site) : (v.site s).escape = s.escape := by
  unfold Site.escape
  rw [show (v.site s).localVar = s.localVar.map v.declarator from rfl,
    show (v.site s).function = s.function.map v.function from rfl]
  cases s.localVar with
  | none => rfl
  | some d =>
    cases s.function with
    | none => rfl
    | some f =>
      have hBelow : (Node.member (v.function f).member).descendants =
          (Node.member f.member).descendants.map v.node := v.descendants_node (.member f.member)
      simp only [Option.map_some, hBelow, evidence_map]
      rfl

theorem arrayType?_unit {e : Expr} (h : e.span.start ≠ v.word) :
    (Model.ofUnit (v.unit u)).arrayType? (v.expr e) = (Model.ofUnit u).arrayType? e := by
  obtain ⟨id, kind, span⟩ := e
  cases kind
  case arrayCreation element ranks init =>
    simp only [Model.arrayType?, expr, v.exprKind_of_ne h]
    cases ranks with
    | nil => rfl
    | cons outer inner =>
      simp [resolveType_unit, Function.comp_def]
  all_goals rfl

theorem elementCount?_site (s : Site) :
    (v.site s).elementCount? (.ofUnit (v.unit u)) = s.elementCount? (.ofUnit u) := by
  unfold Site.elementCount?
  rw [show (v.site s).ranks = s.ranks.map v.rankSpecifier from rfl,
    show (v.site s).initializer = s.initializer.map (·.map v.expr) from rfl]
  cases s.ranks with
  | nil => rfl
  | cons rank ranks =>
    obtain ⟨sizes, span⟩ := rank
    cases sizes with
    | nil => rfl
    | cons size sizes =>
      cases size with
      | none =>
        cases s.initializer with
        | none => rfl
        | some es => exact congrArg some (List.length_map _)
      | some size =>
        simp only [List.map_cons, rankSpecifier, sizes_eq, Option.map_some, List.head?_cons,
          Option.bind_eq_bind, Option.bind_some, unparenthesized_expr, isConstantReference_unit,
          constantValue?_unit]
        obtain ⟨id, kind, span⟩ := size.unparenthesized
        cases kind
        case arrayCreation element ranks init =>
          rw [expr, exprKind]
          rcases v.creation_cases span.start (v.typeRef element) (v.rankSpecifiers ranks)
            (v.exprs? init) with ⟨_, _, _, _, h⟩ | h
          · simp only [h]
          · simp only [h]
        all_goals rfl

theorem size_site {s : Site} (h : s.expr.span.start ≠ v.word) :
    (v.site s).size (.ofUnit (v.unit u)) = s.size (.ofUnit u) := by
  unfold Site.size
  rw [show (v.site s).expr = v.expr s.expr from rfl, v.arrayType?_unit u h, elementCount?_site]

end Respelling

namespace StackCandidate

variable {u : CompilationUnit} {e : Expr}

/-- The way to a candidate leads through its declarator. -/
theorem exists_declarator (h : StackCandidate u e) :
    ∃ d i around, Lineage u (.expr e) (.declarator d :: around) ∧ d.init = some i ∧
      i.value = e ∧ Site.boundLocal? (.declarator d :: around) = some d := by
  obtain ⟨d, st, l, inner, outer, m, f, s, bytes, hLineage, hst, _⟩ := h
  obtain ⟨_, hChild⟩ := hLineage.parent
  simp only [Node.children, Option.mem_toList, Option.map_eq_some_iff] at hChild
  obtain ⟨i, hi, hValue⟩ := hChild
  cases hValue
  exact ⟨d, i, _, hLineage, hi, rfl, Site.boundLocal?_eq_some.mpr ⟨st, l, _, rfl, hst⟩⟩

theorem mem_walk (h : StackCandidate u e) : .expr e ∈ (SyntaxTree.ofUnit u).walk := by
  obtain ⟨d, i, around, hLineage, _⟩ := h.exists_declarator
  exact Lineage.mem_walk_iff.mpr ⟨_, hLineage⟩

theorem exists_dimension (h : StackCandidate u e) :
    ∃ element size span init, e.kind = .arrayCreation element [⟨[size], span⟩] init := by
  obtain ⟨d, st, l, inner, outer, m, f, s, bytes, _, _, _, _, _, hs, hSize, _⟩ := h
  unfold Site.ofExpr? at hs
  split at hs
  next element ranks init hKind =>
    cases hs
    match ranks with
    | [] =>
      simp only [Site.size, Model.arrayType?, hKind] at hSize
      cases hSize
    | ⟨sizes, span⟩ :: more =>
      simp only [Site.size, Model.arrayType?, hKind] at hSize
      split at hSize
      · cases hSize
      next hRank =>
        rw [not_or] at hRank
        have hMore : more = [] := by
          cases more with
          | nil => rfl
          | cons rank more => exact absurd rfl hRank.2
        match sizes with
        | [] => cases hSize
        | [size] =>
          rw [hMore] at hKind
          exact ⟨element, size, span, init, hKind⟩
        | _ :: _ :: _ =>
          simp only [List.length_cons] at hRank
          omega
  next => cases hs

theorem exists_respelling (h : StackCandidate u e) :
    ∃ (v : Respelling) (d : Declarator) (around : List Node), v.created = e ∧
      d.init = some v.initial ∧ Lineage u (.expr e) around ∧ Site.boundLocal? around = some d ∧
      ∃ top ∈ u.decls, v.Holds (.decl top) := by
  obtain ⟨d, i, around, hLineage, hi, hValue, hBound⟩ := h.exists_declarator
  have hWalk := Lineage.mem_walk_iff.mpr ⟨_, hLineage.parent.1⟩
  rw [SyntaxTree.walk_ofUnit] at hWalk
  obtain ⟨top, hTop, hd⟩ := List.mem_flatMap.mp hWalk
  refine ⟨⟨i⟩, d, _, hValue, hi, hLineage, hBound, top, hTop, d, hd, i, hi, rfl, ?_⟩
  rw [hValue]
  exact h.exists_dimension

variable {source : List Char} {x : Expr}

theorem apart (hx : StackCandidate (parseSource source).1 x)
    (he : StackCandidate (parseSource source).1 e) (hne : x ≠ e) :
    x.span.stop ≤ e.span.start ∨ e.span.stop ≤ x.span.start := by
  have hu := numbered_parseSource source
  obtain ⟨_, _, _, hLineage, _⟩ := he.exists_declarator
  obtain ⟨_, _, _, hLineage', _⟩ := hx.exists_declarator
  rcases nestedOrApart_of_mem_walk hx.mem_walk he.mem_walk with (hNested | hNested) | hApart
  · cases hLineage.eq_of_mem_descend hu hLineage' hNested
    exact absurd rfl hne
  · cases hLineage'.eq_of_mem_descend hu hLineage hNested
    exact absurd rfl hne
  · exact hApart

theorem eq_of_id (he : StackCandidate (parseSource source).1 e)
    (hx : .expr x ∈ (SyntaxTree.ofUnit (parseSource source).1).walk) (hId : x.id = e.id) : x = e := by
  obtain ⟨_, hLineage⟩ := Lineage.mem_walk_iff.mp hx
  obtain ⟨_, hLineage'⟩ := Lineage.mem_walk_iff.mp he.mem_walk
  exact Node.expr.inj (hLineage.unique (numbered_parseSource source) hLineage' hId).1

/-- No other expression starts where a candidate starts. -/
theorem eq_of_start (he : StackCandidate (parseSource source).1 e)
    (hBelow : ∀ n ∈ (Node.expr e).descendants, n.span.start ≠ e.span.start)
    (hx : .expr x ∈ (SyntaxTree.ofUnit (parseSource source).1).walk)
    (hStart : x.span.start = e.span.start) : x = e := by
  have hu := numbered_parseSource source
  obtain ⟨_, _, _, hLineage, _⟩ := he.exists_declarator
  obtain ⟨_, hLineage'⟩ := Lineage.mem_walk_iff.mp hx
  rcases nestedOrApart_of_mem_walk hx he.mem_walk with (hNested | hNested) | hApart
  · cases hLineage.eq_of_mem_descend hu hLineage' hNested
    rfl
  · rcases Node.mem_descend_iff.mp hNested with hEq | hBelow'
    · cases hEq
      rfl
    · exact absurd hStart (hBelow _ hBelow')
  · have := span_start_lt_stop hx
    have := span_start_lt_stop he.mem_walk
    simp only [Node.span] at *
    omega

end StackCandidate

namespace Respelling

variable {source : List Char} {v : Respelling}

theorem kind_created {element : TypeRef} {size : Option Expr} {span : Span}
    {init : Option (List Expr)} (h : v.created.kind = .arrayCreation element [⟨[size], span⟩] init) :
    (v.expr v.created).kind =
      .stackAlloc (some (v.typeRef element)) (size.map v.expr) (init.map (·.map v.expr)) := by
  rw [expr_kind, h, exprKind, rankSpecifiers_eq, exprs?_eq]
  simp only [List.map_cons, List.map_nil, rankSpecifier, sizes_eq, creation]
  exact if_pos rfl

theorem arrayCreations_unit (hc : StackCandidate (parseSource source).1 v.created)
    (hBelow : ∀ n ∈ (Node.expr v.created).descendants, n.span.start ≠ v.word) :
    (SyntaxTree.ofUnit (v.unit (parseSource source).1)).arrayCreations =
      ((SyntaxTree.ofUnit (parseSource source).1).arrayCreations.filter
        fun x => x.id != v.created.id).map v.expr := by
  unfold SyntaxTree.arrayCreations
  rw [walk_unit, List.filterMap_map, List.filter_filterMap, List.map_filterMap]
  apply List.filterMap_congr
  intro n hn
  cases n with
  | expr e =>
    by_cases hId : e.id = v.created.id
    · obtain rfl := hc.eq_of_id hn hId
      obtain ⟨element, size, span, init, hKind⟩ := hc.exists_dimension
      have hStack := kind_created hKind
      rw [Function.comp_apply, node]
      generalize v.expr v.created = stacked at hStack ⊢
      generalize v.created = e at hKind ⊢
      obtain ⟨id, kind, span'⟩ := e
      obtain ⟨id', kind', span''⟩ := stacked
      cases hKind
      cases hStack
      dsimp only
      rw [Option.filter_some, if_neg (by simp)]
      rfl
    · have hStart : e.span.start ≠ v.word := by
        intro hStart
        rw [hc.eq_of_start hBelow hn hStart] at hId
        exact hId rfl
      obtain ⟨id, kind, span⟩ := e
      have hKeep : (id != v.created.id) = true := by simpa using hId
      cases kind
      case arrayCreation element ranks init =>
        simp only [Function.comp_apply, node, expr, v.exprKind_of_ne hStart]
        rw [Option.filter_some, if_pos hKeep, Option.map_some, expr, v.exprKind_of_ne hStart]
      all_goals rfl
  | decl | member | declarator | accessor | stmt => rfl

end Respelling

end Stackable
