import Stackable.Allocation.Context
import Stackable.Allocation.Escape
import Stackable.Allocation.Size
import Stackable.Proofs.Isolation.Model

/-!
# Functions are analysed one by one

An array creation has the same site before and after a change to the body of another function, and
each stage gives the same verdict on it.
-/

set_option autoImplicit false

namespace Stackable

/-- The first size between the brackets of an array creation is outside with the creation. -/
theorem Outside.size {unit : CompilationUnit} {id : NodeId} {e x : Expr} {around : List Node}
    {element : TypeRef} {ranks : List (RankSpecifier Expr)} {init : Option (List Expr)}
    (h : Outside unit id (.expr e) around) (hKind : e.kind = .arrayCreation element ranks init)
    (hx : ranks.head?.bind (·.sizes.head?) = some (some x)) :
    ∃ around, Outside unit id (.expr x.unparenthesized) around := by
  obtain ⟨rank, hRank, hSize⟩ := Option.bind_eq_some_iff.mp hx
  have hMem : x ∈ e.kind.operands := by
    rw [hKind]
    apply List.mem_append_left
    apply List.mem_flatMap.mpr ⟨rank, List.mem_of_mem_head? hRank, _⟩
    exact List.mem_filterMap.mpr ⟨some x, List.mem_of_mem_head? hSize, rfl⟩
  exact (h.operand hMem).unparenthesized

theorem Site.exists_of_arrayCreation (m : Model) {e : Expr} {element : TypeRef}
    {ranks : List (RankSpecifier Expr)} {init : Option (List Expr)}
    (hKind : e.kind = .arrayCreation element ranks init) :
    ∃ s, Site.ofExpr? m e = some s ∧ s.expr = e ∧ s.ranks = ranks := by
  unfold Site.ofExpr?
  rw [hKind]
  exact ⟨_, rfl, rfl, rfl⟩

namespace BodyChange

variable {u : CompilationUnit} {c : BodyChange}

theorem enclosingFunction?_map {around : List Node} (h : ∀ n ∈ around, n.IsNot c.target) :
    Site.enclosingFunction? (around.map c.node) = Site.enclosingFunction? around := by
  induction around with
  | nil => rfl
  | cons n around ih =>
    have hRest := ih fun m hm => h m (List.mem_cons_of_mem n hm)
    cases n with
    | member m => exact c.function?_node (h (.member m) List.mem_cons_self)
    | accessor a => rfl
    | decl | declarator | stmt | expr => exact hRest

theorem boundLocal?_map (around : List Node) :
    Site.boundLocal? (around.map c.node) = Site.boundLocal? around := by
  cases around with
  | nil => rfl
  | cons n around =>
    cases n with
    | declarator d =>
      cases around with
      | nil => rfl
      | cons n around =>
        cases n with
        | stmt s =>
          obtain ⟨id, kind, span⟩ := s
          cases kind <;> rfl
        | decl | member | declarator | accessor | expr => rfl
    | decl | member | accessor | stmt | expr => rfl

theorem isLoop_node (n : Node) : (c.node n).isLoop = n.isLoop := by
  cases n <;> rfl

section Numbered

variable (hu : u.Numbered) (hw : (c.unit u).Numbered) {e : Expr} {around : List Node}
  (h : Outside u c.target (.expr e) around)
include hu hw h

theorem sizeSpecOf_unit {element : TypeRef} {ranks : List (RankSpecifier Expr)}
    {init : Option (List Expr)} (hKind : e.kind = .arrayCreation element ranks init) :
    Site.sizeSpecOf (.ofUnit (c.unit u)) ranks = Site.sizeSpecOf (.ofUnit u) ranks := by
  unfold Site.sizeSpecOf
  split
  · rfl
  · rfl
  next size _ hSize =>
    obtain ⟨x, hx, rfl⟩ := Option.map_eq_some_iff.mp hSize
    obtain ⟨_, hOutside⟩ := h.size hKind (Option.join_eq_some_iff.mp hx)
    rw [isConstantReference_unit hu hw hOutside]

theorem ofExpr?_unit : Site.ofExpr? (.ofUnit (c.unit u)) e = Site.ofExpr? (.ofUnit u) e := by
  have hAround : (Model.ofUnit u).tree.ancestors e.id = around := h.lineage.ancestors_eq hu
  have hAround' : (Model.ofUnit (c.unit u)).tree.ancestors e.id = around.map c.node :=
    (outside_unit h).lineage.ancestors_eq hw
  unfold Site.ofExpr?
  split
  next element ranks init hKind =>
    dsimp only
    rw [hAround, hAround', enclosingFunction?_map h.isNot, boundLocal?_map,
      sizeSpecOf_unit hu hw h hKind]
  next => rfl

variable {s : Site}

theorem context_unit (hs : s.expr = e) :
    s.context (.ofUnit (c.unit u)) = s.context (.ofUnit u) := by
  have hLoop : ∀ f, s.isInLoop (.ofUnit (c.unit u)) f = s.isInLoop (.ofUnit u) f := by
    intro f
    have hWhile : (fun n : Node => n.id != f.member.id) ∘ c.node = fun n => n.id != f.member.id := by
      funext n
      simp
    have hAround : (SyntaxTree.ofUnit (c.unit u)).ancestors e.id =
        ((SyntaxTree.ofUnit u).ancestors e.id).map c.node := ancestors_unit hu hw h
    unfold Site.isInLoop
    rw [hs, hAround, List.takeWhile_map, hWhile, List.any_map]
    exact congrArg _ (funext isLoop_node)
  unfold Site.context
  cases s.function with
  | none => rfl
  | some f => simp only [hLoop]

theorem elementCount?_unit {element : TypeRef} {init : Option (List Expr)}
    (hKind : e.kind = .arrayCreation element s.ranks init) :
    s.elementCount? (.ofUnit (c.unit u)) = s.elementCount? (.ofUnit u) := by
  unfold Site.elementCount?
  cases hRank : s.ranks.head? with
  | none => rfl
  | some rank =>
    cases hSize : rank.sizes.head? with
    | none => simp [hSize]
    | some size =>
      cases size with
      | none => simp [hSize]
      | some x =>
        obtain ⟨_, hOutside⟩ := h.size hKind (x := x) (by rw [hRank, Option.bind_some, hSize])
        simp only [Option.bind_eq_bind, Option.bind_some, hSize, isConstantReference_unit hu hw hOutside,
          constantValue?_unit hu hw hOutside]

theorem size_unit {element : TypeRef} {init : Option (List Expr)}
    (hKind : e.kind = .arrayCreation element s.ranks init) :
    s.size (.ofUnit (c.unit u)) = s.size (.ofUnit u) := by
  have hType : (Model.ofUnit (c.unit u)).arrayType? s.expr = (Model.ofUnit u).arrayType? s.expr := by
    unfold Model.arrayType?
    simp only [resolveType_unit]
  unfold Site.size
  rw [hType, elementCount?_unit hu hw h hKind]

end Numbered

end BodyChange

/-- The second unit is the first one, but for the body of the method or constructor with the
number. -/
def CompilationUnit.SameOutside (id : NodeId) (u w : CompilationUnit) : Prop :=
  ∃ body, w = BodyChange.unit ⟨id, body⟩ u

theorem CompilationUnit.SameOutside.outside_iff {id : NodeId} {u w : CompilationUnit}
    (h : SameOutside id u w) (e : Expr) :
    (∃ around, Outside u id (.expr e) around) ↔ ∃ around, Outside w id (.expr e) around := by
  obtain ⟨body, rfl⟩ := h
  constructor
  · rintro ⟨around, he⟩
    exact ⟨_, BodyChange.outside_unit (c := ⟨id, body⟩) he⟩
  · rintro ⟨around, he⟩
    obtain ⟨n, outer, hn, hEq, _⟩ := BodyChange.exists_outside (c := ⟨id, body⟩) he
    cases n with
    | expr x =>
      cases hEq
      exact ⟨outer, hn⟩
    | decl | member | declarator | accessor | stmt => cases hEq

/-- The analysis looks at one function at a time: two units that differ in the body of one method
or constructor only have the same array creations outside it, with the same verdicts. -/
theorem verdicts_agree_outside {id : NodeId} {u w : CompilationUnit} (hu : u.Numbered)
    (hw : w.Numbered) (h : u.SameOutside id w) (e : Expr) :
    ((∃ around, Outside u id (.expr e) around) ↔ ∃ around, Outside w id (.expr e) around) ∧
    ∀ around element ranks init, Outside u id (.expr e) around →
      e.kind = .arrayCreation element ranks init →
      ∃ s t, Site.ofExpr? (.ofUnit u) e = some s ∧ Site.ofExpr? (.ofUnit w) e = some t ∧
        s.context (.ofUnit u) = t.context (.ofUnit w) ∧ s.size (.ofUnit u) = t.size (.ofUnit w) ∧
        s.escape = t.escape := by
  refine ⟨h.outside_iff e, ?_⟩
  obtain ⟨body, rfl⟩ := h
  intro around element ranks init he hKind
  obtain ⟨s, hs, rfl, rfl⟩ := Site.exists_of_arrayCreation (.ofUnit u) hKind
  have hSame := BodyChange.ofExpr?_unit (c := ⟨id, body⟩) hu hw he
  refine ⟨s, s, hs, hSame.trans hs, ?_, ?_, rfl⟩
  · exact (BodyChange.context_unit hu hw he rfl).symm
  · exact (BodyChange.size_unit hu hw he hKind).symm

/-- `new byte[N]` -/
def bytesOfN : Expr :=
  ⟨8, .arrayCreation ⟨.predefined .byte, ⟨65, 69⟩⟩ [⟨[some ⟨7, .ident "N", ⟨70, 71⟩⟩], ⟨69, 72⟩⟩] none,
    ⟨61, 72⟩⟩

/-- `class C{const int N=4;void M(){..}void P(){var a=new byte[N];}}` with a body for `M`. -/
def besideMethod (body : List Stmt) : CompilationUnit :=
  let four : Expr := ⟨0, .int 4 none, ⟨20, 21⟩⟩
  let field : FieldDecl :=
    ⟨[.constMod], ⟨.predefined .int, ⟨14, 17⟩⟩, [⟨1, "N", ⟨18, 19⟩, some ⟨⟨19, 20⟩, four⟩, ⟨18, 21⟩⟩]⟩
  let first : MethodDecl :=
    ⟨[], ⟨.predefined .void, ⟨22, 26⟩⟩, "M", ⟨27, 28⟩, [], [], some (.block body)⟩
  let array : Declarator := ⟨9, "a", ⟨59, 60⟩, some ⟨⟨60, 61⟩, bytesOfN⟩, ⟨59, 72⟩⟩
  let statement : Stmt := ⟨10, .localDecl ⟨⟨.named ["var"] [], ⟨55, 58⟩⟩, false, [array]⟩, ⟨55, 73⟩⟩
  let second : MethodDecl :=
    ⟨[], ⟨.predefined .void, ⟨46, 50⟩⟩, "P", ⟨51, 52⟩, [], [], some (.block [statement])⟩
  ⟨[⟨12, .typeDecl ⟨.classType, "C", ⟨6, 7⟩, [], [], [],
    [⟨2, .field field, ⟨8, 22⟩⟩, ⟨6, .method first, ⟨22, 46⟩⟩, ⟨11, .method second, ⟨46, 74⟩⟩]⟩,
    ⟨0, 75⟩⟩], ⟨0, 75⟩⟩

/-- `const int N=9;` -/
def constantOfM : Stmt :=
  ⟨5, .localDecl ⟨⟨.predefined .int, ⟨37, 40⟩⟩, true,
    [⟨4, "N", ⟨41, 42⟩, some ⟨⟨42, 43⟩, ⟨3, .int 9 none, ⟨43, 44⟩⟩⟩, ⟨41, 44⟩⟩]⟩, ⟨31, 45⟩⟩

theorem outside_besideMethod (body : List Stmt) :
    ∃ around, Outside (besideMethod body) 6 (.expr bytesOfN) around := by
  have hClass : Outside (besideMethod body) 6 (.decl _) [] :=
    ⟨.top List.mem_cons_self, fun m hm => by cases hm⟩
  have hMethod := hClass.child (fun hf => by cases hf)
    (List.mem_cons_of_mem _ (List.mem_cons_of_mem _ List.mem_cons_self))
  have hStmt := hMethod.child (fun _ => by decide) List.mem_cons_self
  have hDeclarator := hStmt.child (Node.isNot_of_isCode rfl) List.mem_cons_self
  exact ⟨_, hDeclarator.child (Node.isNot_of_isCode rfl) List.mem_cons_self⟩

/-- A constant of the same name in another method makes no difference. -/
theorem verdicts_agree_beside_constant :
    (besideMethod []).Numbered ∧ (besideMethod [constantOfM]).Numbered ∧
    (besideMethod []).SameOutside 6 (besideMethod [constantOfM]) ∧
    (Site.ofExpr? (.ofUnit (besideMethod [])) bytesOfN).map (·.size (.ofUnit (besideMethod []))) =
      some (.sized 4) ∧
    ∃ s t, Site.ofExpr? (.ofUnit (besideMethod [])) bytesOfN = some s ∧
      Site.ofExpr? (.ofUnit (besideMethod [constantOfM])) bytesOfN = some t ∧
      s.context (.ofUnit (besideMethod [])) = t.context (.ofUnit (besideMethod [constantOfM])) ∧
      s.size (.ofUnit (besideMethod [])) = t.size (.ofUnit (besideMethod [constantOfM])) ∧
      s.escape = t.escape := by
  have hu : (besideMethod []).Numbered := by
    unfold CompilationUnit.Numbered
    decide +kernel
  have hw : (besideMethod [constantOfM]).Numbered := by
    unfold CompilationUnit.Numbered
    decide +kernel
  have hSame : (besideMethod []).SameOutside 6 (besideMethod [constantOfM]) :=
    ⟨some (.block [constantOfM]), rfl⟩
  obtain ⟨around, he⟩ := outside_besideMethod []
  exact ⟨hu, hw, hSame, by decide +kernel, (verdicts_agree_outside hu hw hSame bytesOfN).2 _ _ _ _ he rfl⟩

end Stackable
