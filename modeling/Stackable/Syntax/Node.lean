import Stackable.Syntax.Decl

/-!
# Nodes

Declarations, members, declarators, accessors, statements and expressions seen alike: each has a
number, a span, and children in the order in which they are written. `Node.descend` lists a node
and all that is below it, parents before their children.
-/

set_option autoImplicit false

namespace Stackable

inductive Node where
  | decl (d : Decl)
  | member (m : Member)
  | declarator (d : Declarator)
  | accessor (a : Accessor)
  | stmt (s : Stmt)
  | expr (e : Expr)

def FnBody.nodes : FnBody → List Node
  | .block body => body.map .stmt
  | .expr value => [.expr value]

def Param.defaults (params : List Param) : List Node :=
  (params.filterMap (·.default)).map .expr

def MemberKind.nodes : MemberKind Member → List Node
  | .field d => d.declarators.map .declarator
  | .method d => Param.defaults d.params ++ (d.body.map FnBody.nodes).getD []
  | .constructor d =>
    Param.defaults d.params ++ (d.chain.map fun c => c.args.map fun a => .expr a.expr).getD [] ++
      (d.body.map FnBody.nodes).getD []
  | .property d =>
    d.accessors.map .accessor ++ (d.exprBody.map Node.expr).toList ++
      (d.init.map fun i => Node.expr i.value).toList
  | .typeDecl d => d.members.map .member
  | .enumMember d => (d.value.map Node.expr).toList

def StmtKind.nodes : StmtKind Stmt → List Node
  | .block body | .unsafeBlock body => body.map .stmt
  | .localDecl d => d.declarators.map .declarator
  | .expr value | .yieldReturn value => [.expr value]
  | .ret value | .throwStmt value => (value.map Node.expr).toList
  | .ite cond whenTrue whenFalse => .expr cond :: .stmt whenTrue :: (whenFalse.map Node.stmt).toList
  | .forLoop init cond update body =>
    init.map .stmt ++ (cond.map Node.expr).toList ++ update.map .expr ++ [.stmt body]
  | .forEach _ _ iter body => [.expr iter, .stmt body]
  | .whileLoop cond body => [.expr cond, .stmt body]
  | .doWhile body cond => [.stmt body, .expr cond]
  | .switch subject sections =>
    .expr subject :: sections.flatMap fun s =>
      (s.labels.filterMap fun l => l).map .expr ++ s.body.map .stmt
  | .fixed d body => d.declarators.map .declarator ++ [.stmt body]
  | .usingBlock resource body => [.stmt resource, .stmt body]
  | .lock subject body => [.expr subject, .stmt body]
  | .tryCatch body catches finish =>
    body.map .stmt ++ (catches.flatMap fun c => c.body.map .stmt) ++ (finish.getD []).map .stmt
  | .breakStmt | .continueStmt | .yieldBreak | .empty => []

namespace Node

def id : Node → NodeId
  | .decl d => d.id
  | .member m => m.id
  | .declarator d => d.id
  | .accessor a => a.id
  | .stmt s => s.id
  | .expr e => e.id

def span : Node → Span
  | .decl d => d.span
  | .member m => m.span
  | .declarator d => d.span
  | .accessor a => a.span
  | .stmt s => s.span
  | .expr e => e.span

def expr? : Node → Option Expr
  | .expr e => some e
  | _ => none

def stmt? : Node → Option Stmt
  | .stmt s => some s
  | _ => none

def function? : Node → Option Function
  | .member m => m.function?
  | _ => none

def typeDecl? : Node → Option (TypeDecl Member)
  | .decl ⟨_, .typeDecl t, _⟩ => some t
  | .member ⟨_, .typeDecl t, _⟩ => some t
  | _ => none

def children : Node → List Node
  | .decl d =>
    match d.kind with
    | .usingDecl _ => []
    | .namespaceDecl n => n.decls.map .decl
    | .typeDecl t => t.members.map .member
  | .member m => m.kind.nodes
  | .declarator d => (d.init.map fun i => .expr i.value).toList
  | .accessor a => (a.body.map FnBody.nodes).getD []
  | .stmt s => s.kind.nodes
  | .expr e => e.kind.operands.map .expr

/-! ## Children are smaller -/

private theorem sizeOf_le_of_mem_stmts {l : List Stmt} {x : Node} (h : x ∈ l.map Node.stmt) :
    sizeOf x ≤ sizeOf l := by
  obtain ⟨s, hs, rfl⟩ := List.mem_map.1 h
  have := List.sizeOf_lt_of_mem hs
  simp
  omega

private theorem sizeOf_le_of_mem_exprs {l : List Expr} {x : Node} (h : x ∈ l.map Node.expr) :
    sizeOf x ≤ sizeOf l := by
  obtain ⟨e, he, rfl⟩ := List.mem_map.1 h
  have := List.sizeOf_lt_of_mem he
  simp
  omega

private theorem sizeOf_le_of_mem_declarators {l : List Declarator} {x : Node}
    (h : x ∈ l.map Node.declarator) : sizeOf x ≤ sizeOf l := by
  obtain ⟨d, hd, rfl⟩ := List.mem_map.1 h
  have := List.sizeOf_lt_of_mem hd
  simp
  omega

private theorem sizeOf_le_of_mem_expr? {o : Option Expr} {x : Node}
    (h : x ∈ (o.map Node.expr).toList) : sizeOf x ≤ sizeOf o := by
  cases o <;> simp at h
  subst h
  simp

private theorem sizeOf_le_of_mem_stmt? {o : Option Stmt} {x : Node}
    (h : x ∈ (o.map Node.stmt).toList) : sizeOf x ≤ sizeOf o := by
  cases o <;> simp at h
  subst h
  simp

private theorem sizeOf_lt_of_mem_init {o : Option Initializer} {x : Node}
    (h : x ∈ (o.map fun i => Node.expr i.value).toList) : sizeOf x < sizeOf o := by
  cases o <;> simp at h
  subst h
  next i =>
    cases i
    simp only [Node.expr.sizeOf_spec, Option.some.sizeOf_spec, Initializer.mk.sizeOf_spec]
    omega

private theorem sizeOf_le_of_mem_body {o : Option FnBody} {x : Node}
    (h : x ∈ (o.map FnBody.nodes).getD []) : sizeOf x ≤ sizeOf o := by
  cases o with
  | none => simp at h
  | some b =>
    cases b with
    | block body =>
      have := sizeOf_le_of_mem_stmts h
      simp
      omega
    | expr value =>
      simp [FnBody.nodes] at h
      subst h
      simp

private theorem sizeOf_le_of_mem_defaults {l : List Param} {x : Node}
    (h : x ∈ Param.defaults l) : sizeOf x ≤ sizeOf l := by
  obtain ⟨e, he, rfl⟩ := List.mem_map.1 h
  obtain ⟨p, hp, hd⟩ := List.mem_filterMap.1 he
  have := List.sizeOf_lt_of_mem hp
  cases p
  simp only at hd
  subst hd
  simp at *
  omega

private theorem sizeOf_le_of_mem_args {l : List (Argument Expr)} {x : Node}
    (h : x ∈ l.map fun a => Node.expr a.expr) : sizeOf x ≤ sizeOf l := by
  obtain ⟨a, ha, rfl⟩ := List.mem_map.1 h
  have := List.sizeOf_lt_of_mem ha
  cases a
  simp at *
  omega

private theorem sizeOf_lt_of_mem_sections {l : List (SwitchSection Stmt)} {x : Node}
    (h : x ∈ l.flatMap fun s => (s.labels.filterMap fun l => l).map Node.expr ++ s.body.map .stmt) :
    sizeOf x < sizeOf l := by
  obtain ⟨s, hs, h⟩ := List.mem_flatMap.1 h
  have := List.sizeOf_lt_of_mem hs
  obtain ⟨labels, body⟩ := s
  rcases List.mem_append.1 h with h | h
  · obtain ⟨e, he, rfl⟩ := List.mem_map.1 h
    obtain ⟨label, hl, rfl⟩ := List.mem_filterMap.1 he
    have := List.sizeOf_lt_of_mem hl
    simp at *
    omega
  · have := sizeOf_le_of_mem_stmts h
    simp at *
    omega

private theorem sizeOf_lt_of_mem_catches {l : List (CatchClause Stmt)} {x : Node}
    (h : x ∈ l.flatMap fun c => c.body.map Node.stmt) : sizeOf x < sizeOf l := by
  obtain ⟨c, hc, h⟩ := List.mem_flatMap.1 h
  have := List.sizeOf_lt_of_mem hc
  cases c
  have := sizeOf_le_of_mem_stmts h
  simp at *
  omega

private theorem sizeOf_le_of_mem_finish {o : Option (List Stmt)} {x : Node}
    (h : x ∈ (o.getD []).map Node.stmt) : sizeOf x ≤ sizeOf o := by
  have := sizeOf_le_of_mem_stmts h
  cases o <;> simp at *
  omega

private theorem sizeOf_lt_of_mem_stmtKind {k : StmtKind Stmt} {x : Node} (h : x ∈ k.nodes) :
    sizeOf x < 1 + sizeOf k := by
  cases k
  case block body | unsafeBlock body =>
    have := sizeOf_le_of_mem_stmts h
    simp; omega
  case localDecl d =>
    have := sizeOf_le_of_mem_declarators h
    cases d
    simp at *; omega
  case ret value | throwStmt value =>
    have := sizeOf_le_of_mem_expr? h
    simp; omega
  case ite cond whenTrue whenFalse =>
    simp only [StmtKind.nodes, List.mem_cons] at h
    rcases h with rfl | rfl | h
    · simp; omega
    · simp; omega
    · have := sizeOf_le_of_mem_stmt? h
      simp; omega
  case forLoop init cond update body =>
    simp only [StmtKind.nodes, List.mem_append, List.mem_singleton] at h
    rcases h with ((h | h) | h) | rfl
    · have := sizeOf_le_of_mem_stmts h
      simp; omega
    · have := sizeOf_le_of_mem_expr? h
      simp; omega
    · have := sizeOf_le_of_mem_exprs h
      simp; omega
    · simp only [Node.stmt.sizeOf_spec, StmtKind.forLoop.sizeOf_spec]
      omega
  case switch subject sections =>
    rcases List.mem_cons.1 h with rfl | h
    · simp; omega
    · have := sizeOf_lt_of_mem_sections h
      simp; omega
  case fixed d body =>
    rcases List.mem_append.1 h with h | h
    · have := sizeOf_le_of_mem_declarators h
      cases d
      simp at *; omega
    · simp at h
      subst h
      simp only [Node.stmt.sizeOf_spec, StmtKind.fixed.sizeOf_spec]
      omega
  case tryCatch body catches finish =>
    simp only [StmtKind.nodes, List.mem_append] at h
    rcases h with (h | h) | h
    · have := sizeOf_le_of_mem_stmts h
      simp; omega
    · have := sizeOf_lt_of_mem_catches h
      simp; omega
    · have := sizeOf_le_of_mem_finish h
      simp; omega
  case expr | yieldReturn | forEach | whileLoop | doWhile | usingBlock | lock =>
    simp only [StmtKind.nodes, List.mem_cons, List.not_mem_nil, or_false] at h
    rcases h with rfl | rfl <;> simp <;> omega
  all_goals simp [StmtKind.nodes] at h

private theorem sizeOf_lt_of_mem_memberKind {k : MemberKind Member} {x : Node} (h : x ∈ k.nodes) :
    sizeOf x < 1 + sizeOf k := by
  cases k with
  | field d =>
    have := sizeOf_le_of_mem_declarators h
    cases d
    simp at *; omega
  | method d =>
    cases d
    rcases List.mem_append.1 h with h | h
    · have := sizeOf_le_of_mem_defaults h
      simp at *; omega
    · have := sizeOf_le_of_mem_body h
      simp at *; omega
  | constructor d =>
    obtain ⟨modifiers, name, nameSpan, params, chain, body⟩ := d
    simp only [MemberKind.nodes, List.mem_append] at h
    rcases h with (h | h) | h
    · have := sizeOf_le_of_mem_defaults h
      simp; omega
    · cases chain with
      | none => simp at h
      | some c =>
        cases c
        have := sizeOf_le_of_mem_args h
        simp at *; omega
    · have := sizeOf_le_of_mem_body h
      simp; omega
  | property d =>
    obtain ⟨modifiers, type, name, nameSpan, accessors, exprBody, init⟩ := d
    simp only [MemberKind.nodes, List.mem_append] at h
    rcases h with (h | h) | h
    · obtain ⟨a, ha, rfl⟩ := List.mem_map.1 h
      have := List.sizeOf_lt_of_mem ha
      simp; omega
    · have := sizeOf_le_of_mem_expr? h
      simp; omega
    · have := sizeOf_lt_of_mem_init h
      simp; omega
  | typeDecl d =>
    obtain ⟨m, hm, rfl⟩ := List.mem_map.1 h
    have := List.sizeOf_lt_of_mem hm
    cases d
    simp at *; omega
  | enumMember d =>
    have := sizeOf_le_of_mem_expr? h
    cases d
    simp at *; omega

theorem sizeOf_lt_of_mem_children {n c : Node} (h : c ∈ n.children) : sizeOf c < sizeOf n := by
  cases n with
  | decl d =>
    obtain ⟨id, kind, span⟩ := d
    cases kind with
    | usingDecl d => simp [children] at h
    | namespaceDecl n =>
      obtain ⟨d, hd, rfl⟩ := List.mem_map.1 h
      have := List.sizeOf_lt_of_mem hd
      cases n
      simp at *; omega
    | typeDecl t =>
      obtain ⟨m, hm, rfl⟩ := List.mem_map.1 h
      have := List.sizeOf_lt_of_mem hm
      cases t
      simp at *; omega
  | member m =>
    have := sizeOf_lt_of_mem_memberKind h
    cases m
    simp at *; omega
  | declarator d =>
    have := sizeOf_lt_of_mem_init h
    cases d
    simp at *; omega
  | accessor a =>
    have := sizeOf_le_of_mem_body h
    cases a
    simp at *; omega
  | stmt s =>
    have := sizeOf_lt_of_mem_stmtKind h
    cases s
    simp at *; omega
  | expr e =>
    obtain ⟨x, hx, rfl⟩ := List.mem_map.1 h
    have := Expr.sizeOf_lt_of_mem_operands hx
    simp; omega

/-- The node and all that is below it, parents first. -/
def descend (n : Node) : List Node :=
  n :: n.children.attach.flatMap fun c => c.1.descend
termination_by sizeOf n
decreasing_by exact sizeOf_lt_of_mem_children c.2

theorem descend_eq_cons (n : Node) : n.descend = n :: n.children.flatMap descend := by
  rw [descend, List.flatMap_subtype (g := descend) (fun _ _ => rfl), List.unattach_attach]

end Node

end Stackable
