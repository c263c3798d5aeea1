import Stackable.Proofs.Syntax.Lineage

/-!
# A word spelled otherwise

A respelling puts `stackalloc` in the place of one word `new`. What stands behind the word moves,
and where the word creates an array of one dimension the creation becomes one on the stack. All
else in a tree stays as it is: `node` changes no number and keeps the children of every node.
-/

set_option autoImplicit false

namespace Stackable

/-- One `new` of a source is to be spelled `stackalloc`. -/
structure Respelling where
  /-- The initial value that the word starts, with the `=` in front of it. -/
  initial : Initializer

namespace Respelling

variable (v : Respelling)

/-- The array creation that the word starts. -/
def created : Expr := v.initial.value

/-- Where the word starts. -/
def word : Nat := v.created.span.start

/-- Where an offset moves to. -/
def shift (offset : Nat) : Nat := if offset ≤ v.word then offset else offset + 7

theorem shift_le_shift {a b : Nat} : v.shift a ≤ v.shift b ↔ a ≤ b := by
  unfold shift
  split <;> split <;> omega

theorem shift_of_le {a : Nat} (h : a ≤ v.word) : v.shift a = a := if_pos h

theorem shift_of_lt {a : Nat} (h : v.word < a) : v.shift a = a + 7 := if_neg (Nat.not_le.mpr h)

def span (s : Span) : Span := ⟨v.shift s.start, v.shift s.stop⟩

def kind (start : Nat) (k : TokenKind) : TokenKind :=
  if start = v.word ∧ k.isKeyword .newKw = true then .keyword .stackallocKw else k

def token (t : Token) : Token := ⟨v.kind t.span.start t.kind, v.span t.span⟩

mutual

def typeRef : TypeRef → TypeRef
  | ⟨kind, span⟩ => ⟨typeRefKind kind, v.span span⟩

def typeRefKind : TypeRefKind TypeRef → TypeRefKind TypeRef
  | .predefined keyword => .predefined keyword
  | .named path args => .named path (typeRefs args)
  | .array element ranks => .array (typeRef element) ranks
  | .pointer inner => .pointer (typeRef inner)
  | .nullable inner => .nullable (typeRef inner)

def typeRefs : List TypeRef → List TypeRef
  | [] => []
  | t :: ts => typeRef t :: typeRefs ts

end

/-- An array creation from `start` on: the word that is respelled and one size make it one on the
stack. -/
def creation (start : Nat) (element : TypeRef) (ranks : List (RankSpecifier Expr))
    (initializer : Option (List Expr)) : ExprKind Expr :=
  match ranks with
  | [⟨[size], span⟩] =>
    if start = v.word then .stackAlloc (some element) size initializer
    else .arrayCreation element [⟨[size], span⟩] initializer
  | ranks => .arrayCreation element ranks initializer

mutual

def expr : Expr → Expr
  | ⟨id, kind, span⟩ => ⟨id, exprKind span.start kind, v.span span⟩

def exprKind (start : Nat) : ExprKind Expr → ExprKind Expr
  | .int value suffix => .int value suffix
  | .real value suffix => .real value suffix
  | .string value => .string value
  | .char value => .char value
  | .bool value => .bool value
  | .null => .null
  | .ident name => .ident name
  | .this => .this
  | .base => .base
  | .member object name conditional => .member (expr object) name conditional
  | .invocation callee args => .invocation (expr callee) (arguments args)
  | .elementAccess object args => .elementAccess (expr object) (arguments args)
  | .objectCreation type args initializer =>
    .objectCreation (type.map v.typeRef) (arguments args) (exprs? initializer)
  | .arrayCreation element ranks initializer =>
    v.creation start (v.typeRef element) (rankSpecifiers ranks) (exprs? initializer)
  | .implicitArrayCreation elements => .implicitArrayCreation (exprs elements)
  | .stackAlloc element size initializer =>
    .stackAlloc (element.map v.typeRef) (expr? size) (exprs? initializer)
  | .arrayInitializer elements => .arrayInitializer (exprs elements)
  | .assign op target value => .assign op (expr target) (expr value)
  | .conditional cond whenTrue whenFalse =>
    .conditional (expr cond) (expr whenTrue) (expr whenFalse)
  | .binary op left right => .binary op (expr left) (expr right)
  | .unary op operand => .unary op (expr operand)
  | .suffixed op operand => .suffixed op (expr operand)
  | .cast type operand => .cast (v.typeRef type) (expr operand)
  | .isType operand type designation => .isType (expr operand) (v.typeRef type) designation
  | .asType operand type => .asType (expr operand) (v.typeRef type)
  | .typeOf type => .typeOf (v.typeRef type)
  | .sizeOfType type => .sizeOfType (v.typeRef type)
  | .defaultOf type => .defaultOf (type.map v.typeRef)
  | .paren inner => .paren (expr inner)

def expr? : Option Expr → Option Expr
  | none => none
  | some e => some (expr e)

def exprs : List Expr → List Expr
  | [] => []
  | e :: es => expr e :: exprs es

def exprs? : Option (List Expr) → Option (List Expr)
  | none => none
  | some es => some (exprs es)

def sizes : List (Option Expr) → List (Option Expr)
  | [] => []
  | size :: rest => expr? size :: sizes rest

def argument : Argument Expr → Argument Expr
  | ⟨name, modifier, value⟩ => ⟨name, modifier, expr value⟩

def arguments : List (Argument Expr) → List (Argument Expr)
  | [] => []
  | a :: rest => argument a :: arguments rest

def rankSpecifier : RankSpecifier Expr → RankSpecifier Expr
  | ⟨list, span⟩ => ⟨sizes list, v.span span⟩

def rankSpecifiers : List (RankSpecifier Expr) → List (RankSpecifier Expr)
  | [] => []
  | rank :: rest => rankSpecifier rank :: rankSpecifiers rest

end

def initializer (i : Initializer) : Initializer := ⟨v.span i.mark, v.expr i.value⟩

def declarator (d : Declarator) : Declarator :=
  ⟨d.id, d.name, v.span d.nameSpan, d.init.map v.initializer, v.span d.span⟩

def localDecl (d : LocalDecl) : LocalDecl :=
  ⟨v.typeRef d.type, d.isConst, d.declarators.map v.declarator⟩

mutual

def stmt : Stmt → Stmt
  | ⟨id, kind, span⟩ => ⟨id, stmtKind kind, v.span span⟩

def stmtKind : StmtKind Stmt → StmtKind Stmt
  | .block body => .block (stmts body)
  | .localDecl decl => .localDecl (v.localDecl decl)
  | .expr value => .expr (v.expr value)
  | .ret value => .ret (value.map v.expr)
  | .ite cond whenTrue whenFalse => .ite (v.expr cond) (stmt whenTrue) (stmt? whenFalse)
  | .forLoop init cond update body =>
    .forLoop (stmts init) (cond.map v.expr) (update.map v.expr) (stmt body)
  | .forEach type name iter body => .forEach (v.typeRef type) name (v.expr iter) (stmt body)
  | .whileLoop cond body => .whileLoop (v.expr cond) (stmt body)
  | .doWhile body cond => .doWhile (stmt body) (v.expr cond)
  | .switch subject sections => .switch (v.expr subject) (switchSections sections)
  | .breakStmt => .breakStmt
  | .continueStmt => .continueStmt
  | .throwStmt value => .throwStmt (value.map v.expr)
  | .yieldReturn value => .yieldReturn (v.expr value)
  | .yieldBreak => .yieldBreak
  | .unsafeBlock body => .unsafeBlock (stmts body)
  | .fixed decl body => .fixed (v.localDecl decl) (stmt body)
  | .usingBlock resource body => .usingBlock (stmt resource) (stmt body)
  | .lock subject body => .lock (v.expr subject) (stmt body)
  | .tryCatch body catches finish => .tryCatch (stmts body) (catchClauses catches) (stmts? finish)
  | .empty => .empty

def stmts : List Stmt → List Stmt
  | [] => []
  | x :: rest => stmt x :: stmts rest

def stmt? : Option Stmt → Option Stmt
  | none => none
  | some x => some (stmt x)

def stmts? : Option (List Stmt) → Option (List Stmt)
  | none => none
  | some body => some (stmts body)

def switchSection : SwitchSection Stmt → SwitchSection Stmt
  | ⟨labels, body⟩ => ⟨labels.map (·.map v.expr), stmts body⟩

def switchSections : List (SwitchSection Stmt) → List (SwitchSection Stmt)
  | [] => []
  | x :: rest => switchSection x :: switchSections rest

def catchClause : CatchClause Stmt → CatchClause Stmt
  | ⟨type, name, body, span⟩ => ⟨type.map v.typeRef, name, stmts body, v.span span⟩

def catchClauses : List (CatchClause Stmt) → List (CatchClause Stmt)
  | [] => []
  | c :: rest => catchClause c :: catchClauses rest

end

def fnBody : FnBody → FnBody
  | .block body => .block (body.map v.stmt)
  | .expr value => .expr (v.expr value)

def param (p : Param) : Param :=
  ⟨p.name, v.typeRef p.type, p.modifier, p.default.map v.expr, v.span p.span⟩

def accessor (a : Accessor) : Accessor :=
  ⟨a.id, a.kind, a.modifiers, a.body.map v.fnBody, v.span a.span⟩

def methodDecl (d : MethodDecl) : MethodDecl :=
  ⟨d.modifiers, v.typeRef d.returnType, d.name, v.span d.nameSpan, d.typeParams,
    d.params.map v.param, d.body.map v.fnBody⟩

def constructorChain (c : ConstructorChain) : ConstructorChain :=
  ⟨c.isBase, c.args.map v.argument⟩

def constructorDecl (d : ConstructorDecl) : ConstructorDecl :=
  ⟨d.modifiers, d.name, v.span d.nameSpan, d.params.map v.param, d.chain.map v.constructorChain,
    d.body.map v.fnBody⟩

def propertyDecl (d : PropertyDecl) : PropertyDecl :=
  ⟨d.modifiers, v.typeRef d.type, d.name, v.span d.nameSpan, d.accessors.map v.accessor,
    d.exprBody.map v.expr, d.init.map v.initializer⟩

def fieldDecl (d : FieldDecl) : FieldDecl :=
  ⟨d.modifiers, v.typeRef d.type, d.declarators.map v.declarator⟩

def enumMember (d : EnumMember) : EnumMember := ⟨d.name, v.span d.nameSpan, d.value.map v.expr⟩

mutual

def member : Member → Member
  | ⟨id, kind, span⟩ => ⟨id, memberKind kind, v.span span⟩

def memberKind : MemberKind Member → MemberKind Member
  | .field decl => .field (v.fieldDecl decl)
  | .method decl => .method (v.methodDecl decl)
  | .constructor decl => .constructor (v.constructorDecl decl)
  | .property decl => .property (v.propertyDecl decl)
  | .typeDecl decl => .typeDecl (typeDecl decl)
  | .enumMember decl => .enumMember (v.enumMember decl)

def typeDecl : TypeDecl Member → TypeDecl Member
  | ⟨kind, name, nameSpan, modifiers, typeParams, bases, list⟩ =>
    ⟨kind, name, v.span nameSpan, modifiers, typeParams, bases.map v.typeRef, members list⟩

def members : List Member → List Member
  | [] => []
  | m :: rest => member m :: members rest

end

mutual

def decl : Decl → Decl
  | ⟨id, kind, span⟩ => ⟨id, declKind kind, v.span span⟩

def declKind : DeclKind Decl → DeclKind Decl
  | .usingDecl directive => .usingDecl directive
  | .namespaceDecl d => .namespaceDecl (namespaceDecl d)
  | .typeDecl d => .typeDecl (v.typeDecl d)

def namespaceDecl : NamespaceDecl Decl → NamespaceDecl Decl
  | ⟨name, list, fileScoped⟩ => ⟨name, decls list, fileScoped⟩

def decls : List Decl → List Decl
  | [] => []
  | d :: rest => decl d :: decls rest

end

def unit (u : CompilationUnit) : CompilationUnit := ⟨u.decls.map v.decl, v.span u.span⟩

def node : Node → Node
  | .decl d => .decl (v.decl d)
  | .member m => .member (v.member m)
  | .declarator d => .declarator (v.declarator d)
  | .accessor a => .accessor (v.accessor a)
  | .stmt s => .stmt (v.stmt s)
  | .expr e => .expr (v.expr e)

@[simp] theorem typeRefs_eq (l : List TypeRef) : v.typeRefs l = l.map v.typeRef := by
  induction l with
  | nil => rfl
  | cons t ts ih => exact congrArg _ ih

@[simp] theorem expr?_eq (o : Option Expr) : v.expr? o = o.map v.expr := by
  cases o <;> rfl

@[simp] theorem exprs_eq (l : List Expr) : v.exprs l = l.map v.expr := by
  induction l with
  | nil => rfl
  | cons e es ih => exact congrArg _ ih

@[simp] theorem exprs?_eq (o : Option (List Expr)) : v.exprs? o = o.map (·.map v.expr) := by
  cases o with
  | none => rfl
  | some l => exact congrArg some (v.exprs_eq l)

@[simp] theorem sizes_eq (l : List (Option Expr)) : v.sizes l = l.map (·.map v.expr) := by
  induction l with
  | nil => rfl
  | cons size rest ih => simp only [sizes, expr?_eq, ih, List.map_cons]

@[simp] theorem arguments_eq (l : List (Argument Expr)) : v.arguments l = l.map v.argument := by
  induction l with
  | nil => rfl
  | cons a rest ih => exact congrArg _ ih

@[simp] theorem rankSpecifiers_eq (l : List (RankSpecifier Expr)) :
    v.rankSpecifiers l = l.map v.rankSpecifier := by
  induction l with
  | nil => rfl
  | cons rank rest ih => exact congrArg _ ih

@[simp] theorem stmts_eq (l : List Stmt) : v.stmts l = l.map v.stmt := by
  induction l with
  | nil => rfl
  | cons x rest ih => exact congrArg _ ih

@[simp] theorem stmts?_eq (o : Option (List Stmt)) : v.stmts? o = o.map (·.map v.stmt) := by
  cases o with
  | none => rfl
  | some l => exact congrArg some (v.stmts_eq l)

@[simp] theorem switchSections_eq (l : List (SwitchSection Stmt)) :
    v.switchSections l = l.map v.switchSection := by
  induction l with
  | nil => rfl
  | cons x rest ih => exact congrArg _ ih

@[simp] theorem catchClauses_eq (l : List (CatchClause Stmt)) :
    v.catchClauses l = l.map v.catchClause := by
  induction l with
  | nil => rfl
  | cons c rest ih => exact congrArg _ ih

@[simp] theorem members_eq (l : List Member) : v.members l = l.map v.member := by
  induction l with
  | nil => rfl
  | cons m rest ih => exact congrArg _ ih

@[simp] theorem decls_eq (l : List Decl) : v.decls l = l.map v.decl := by
  induction l with
  | nil => rfl
  | cons d rest ih => exact congrArg _ ih

@[simp] theorem expr_id (e : Expr) : (v.expr e).id = e.id := by
  cases e; rfl

@[simp] theorem expr_kind (e : Expr) : (v.expr e).kind = v.exprKind e.span.start e.kind := by
  cases e; rfl

@[simp] theorem expr_span (e : Expr) : (v.expr e).span = v.span e.span := by
  cases e; rfl

@[simp] theorem argument_modifier (a : Argument Expr) : (v.argument a).modifier = a.modifier := by
  cases a; rfl

@[simp] theorem argument_expr (a : Argument Expr) : (v.argument a).expr = v.expr a.expr := by
  cases a; rfl

@[simp] theorem rankSpecifier_sizes (r : RankSpecifier Expr) :
    (v.rankSpecifier r).sizes = r.sizes.map (·.map v.expr) := by
  cases r
  exact v.sizes_eq _

@[simp] theorem stmt_id (s : Stmt) : (v.stmt s).id = s.id := by
  cases s; rfl

@[simp] theorem stmt_kind (s : Stmt) : (v.stmt s).kind = v.stmtKind s.kind := by
  cases s; rfl

@[simp] theorem stmt_span (s : Stmt) : (v.stmt s).span = v.span s.span := by
  cases s; rfl

@[simp] theorem switchSection_labels (x : SwitchSection Stmt) :
    (v.switchSection x).labels = x.labels.map (·.map v.expr) := by
  cases x; rfl

@[simp] theorem switchSection_body (x : SwitchSection Stmt) :
    (v.switchSection x).body = x.body.map v.stmt := by
  cases x
  exact v.stmts_eq _

@[simp] theorem catchClause_name (c : CatchClause Stmt) : (v.catchClause c).name = c.name := by
  cases c; rfl

@[simp] theorem catchClause_body (c : CatchClause Stmt) :
    (v.catchClause c).body = c.body.map v.stmt := by
  cases c
  exact v.stmts_eq _

@[simp] theorem member_id (m : Member) : (v.member m).id = m.id := by
  cases m; rfl

@[simp] theorem member_kind (m : Member) : (v.member m).kind = v.memberKind m.kind := by
  cases m; rfl

@[simp] theorem member_span (m : Member) : (v.member m).span = v.span m.span := by
  cases m; rfl

@[simp] theorem typeDecl_members (t : TypeDecl Member) :
    (v.typeDecl t).members = t.members.map v.member := by
  cases t
  exact v.members_eq _

@[simp] theorem decl_id (d : Decl) : (v.decl d).id = d.id := by
  cases d; rfl

@[simp] theorem decl_span (d : Decl) : (v.decl d).span = v.span d.span := by
  cases d; rfl

@[simp] theorem namespaceDecl_decls (n : NamespaceDecl Decl) :
    (v.namespaceDecl n).decls = n.decls.map v.decl := by
  cases n
  exact v.decls_eq _

@[simp] theorem node_id (n : Node) : (v.node n).id = n.id := by
  cases n <;> simp [node, Node.id, declarator, accessor]

@[simp] theorem node_span (n : Node) : (v.node n).span = v.span n.span := by
  cases n <;> simp [node, Node.span, declarator, accessor]

theorem creation_cases (start : Nat) (element : TypeRef) (ranks : List (RankSpecifier Expr))
    (init : Option (List Expr)) :
    (∃ size span, ranks = [⟨[size], span⟩] ∧ start = v.word ∧
      v.creation start element ranks init = .stackAlloc (some element) size init) ∨
    v.creation start element ranks init = .arrayCreation element ranks init := by
  unfold creation
  split
  · split
    · exact .inl ⟨_, _, rfl, ‹_›, rfl⟩
    · exact .inr rfl
  · exact .inr rfl

theorem operands_creation (start : Nat) (element : TypeRef) (ranks : List (RankSpecifier Expr))
    (init : Option (List Expr)) :
    (v.creation start element ranks init).operands =
      (ExprKind.arrayCreation element ranks init).operands := by
  rcases v.creation_cases start element ranks init with ⟨size, span, rfl, _, h⟩ | h
  · rw [h]
    cases size <;> rfl
  · rw [h]

theorem filterMap_sizes (l : List (Option Expr)) :
    l.filterMap (fun size => size.map v.expr) = (l.filterMap fun size => size).map v.expr := by
  rw [List.map_filterMap]

theorem getD_exprs (o : Option (List Expr)) :
    (o.map (·.map v.expr)).getD [] = (o.getD []).map v.expr := by
  cases o <;> rfl

theorem operands_exprKind (start : Nat) (k : ExprKind Expr) :
    (v.exprKind start k).operands = k.operands.map v.expr := by
  cases k
  case arrayCreation element ranks init =>
    rw [exprKind, operands_creation]
    simp [ExprKind.operands, getD_exprs, List.flatMap_map, List.map_flatMap, filterMap_sizes]
  case objectCreation type args init | invocation callee args | elementAccess callee args =>
    simp [exprKind, ExprKind.operands, getD_exprs]
  case stackAlloc element size init =>
    cases size <;> simp [exprKind, ExprKind.operands, getD_exprs]
  all_goals simp [exprKind, ExprKind.operands]

theorem nodes_fnBody (b : FnBody) : (v.fnBody b).nodes = b.nodes.map v.node := by
  cases b <;> simp [fnBody, FnBody.nodes, node]

theorem nodes_stmtKind (k : StmtKind Stmt) : (v.stmtKind k).nodes = k.nodes.map v.node := by
  have stmts : v.node ∘ Node.stmt = Node.stmt ∘ v.stmt := rfl
  have exprs : v.node ∘ Node.expr = Node.expr ∘ v.expr := rfl
  have declarators : v.node ∘ Node.declarator = Node.declarator ∘ v.declarator := rfl
  cases k
  case ret value | throwStmt value => cases value <;> rfl
  case ite cond whenTrue whenFalse => cases whenFalse <;> rfl
  case forLoop init cond update body =>
    cases cond <;> simp [stmtKind, StmtKind.nodes, stmts, exprs, node]
  case switch subject sections =>
    simp [stmtKind, StmtKind.nodes, List.flatMap_map, List.map_flatMap, filterMap_sizes, stmts,
      exprs, node]
  case tryCatch body catches finish =>
    cases finish <;> simp [stmtKind, StmtKind.nodes, List.flatMap_map, List.map_flatMap, stmts]
  all_goals simp [stmtKind, StmtKind.nodes, localDecl, stmts, declarators, node]

theorem nodes_body? (o : Option FnBody) :
    ((o.map v.fnBody).map FnBody.nodes).getD [] = ((o.map FnBody.nodes).getD []).map v.node := by
  cases o with
  | none => rfl
  | some b => exact v.nodes_fnBody b

theorem nodes_defaults (l : List Param) :
    Param.defaults (l.map v.param) = (Param.defaults l).map v.node := by
  simp [Param.defaults, List.filterMap_map, List.map_filterMap, Function.comp_def, param, node]

theorem nodes_memberKind (k : MemberKind Member) : (v.memberKind k).nodes = k.nodes.map v.node := by
  cases k with
  | field d => simp [memberKind, MemberKind.nodes, fieldDecl, node]
  | method d =>
    simp only [memberKind, MemberKind.nodes, methodDecl, nodes_defaults, nodes_body?, List.map_append]
  | constructor d =>
    simp only [memberKind, MemberKind.nodes, constructorDecl, nodes_defaults, nodes_body?,
      List.map_append]
    cases d.chain <;> simp [constructorChain, node]
  | property d =>
    simp only [memberKind, MemberKind.nodes, propertyDecl, List.map_append]
    cases d.exprBody <;> cases d.init <;> simp [node, initializer]
  | typeDecl d => simp [memberKind, MemberKind.nodes, node]
  | enumMember d => cases h : d.value <;> simp [memberKind, MemberKind.nodes, enumMember, h, node]

@[simp] theorem children_node (n : Node) : (v.node n).children = n.children.map v.node := by
  cases n with
  | decl d =>
    obtain ⟨id, kind, span⟩ := d
    cases kind <;> simp [node, decl, declKind, Node.children]
  | member m => simpa [node, Node.children] using v.nodes_memberKind m.kind
  | declarator d => cases h : d.init <;> simp [node, declarator, Node.children, h, initializer]
  | accessor a => exact v.nodes_body? a.body
  | stmt s => simpa [node, Node.children] using v.nodes_stmtKind s.kind
  | expr e => simp [node, Node.children, operands_exprKind]

@[simp] theorem descend_node (n : Node) : (v.node n).descend = n.descend.map v.node := by
  rw [Node.descend_eq_cons, Node.descend_eq_cons, children_node, List.map_cons, List.flatMap_map,
    List.map_flatMap]
  congr 1
  refine List.flatMap_congr fun c hc => ?_
  have := Node.sizeOf_lt_of_mem_children hc
  exact descend_node c
termination_by sizeOf n

@[simp] theorem descendants_node (n : Node) :
    (v.node n).descendants = n.descendants.map v.node := by
  rw [Node.descendants_eq, Node.descendants_eq, children_node, List.flatMap_map, List.map_flatMap]
  simp only [descend_node]

/-! ## Where the word stands -/

/-- The initial value is the one that the word starts, and it creates an array of one dimension. -/
def Creates (i : Initializer) : Prop :=
  i = v.initial ∧
    ∃ element size span init, i.value.kind = .arrayCreation element [⟨[size], span⟩] init

/-- The declarator has this initial value. -/
def Starts (d : Declarator) : Prop := ∃ i, d.init = some i ∧ v.Creates i

/-- Such a declarator is the node or below it. -/
def Holds (n : Node) : Prop := ∃ d, .declarator d ∈ n.descend ∧ v.Starts d

theorem holds_iff {n : Node} :
    v.Holds n ↔ (∃ d, n = .declarator d ∧ v.Starts d) ∨ ∃ x ∈ n.children, v.Holds x := by
  constructor
  · rintro ⟨d, hd, h⟩
    rcases Node.mem_descend_iff.mp hd with rfl | hd
    · exact .inl ⟨d, rfl, h⟩
    · obtain ⟨x, hx, hd⟩ := Node.mem_descendants.mp hd
      exact .inr ⟨x, hx, d, hd, h⟩
  · rintro (⟨d, rfl, h⟩ | ⟨x, hx, d, hd, h⟩)
    · exact ⟨d, Node.mem_descend_self _, h⟩
    · exact ⟨d, Node.mem_descend_iff.mpr (.inr (Node.mem_descendants.mpr ⟨x, hx, hd⟩)), h⟩

theorem not_holds_expr (e : Expr) : ¬v.Holds (.expr e) := by
  rintro ⟨d, hd, _⟩
  obtain ⟨x, hx⟩ := Node.exists_expr_of_mem_descend hd
  cases hx

theorem holds_declarator {d : Declarator} : v.Holds (.declarator d) ↔ v.Starts d := by
  rw [holds_iff]
  constructor
  · rintro (⟨d', h, hd⟩ | ⟨x, hx, h⟩)
    · cases h
      exact hd
    · simp only [Node.children, Option.mem_toList, Option.map_eq_some_iff] at hx
      obtain ⟨i, _, rfl⟩ := hx
      exact (v.not_holds_expr i.value h).elim
  · exact fun h => .inl ⟨d, rfl, h⟩

def entry (e : Entry) : Entry := ⟨v.node e.node, e.ancestors.map v.node⟩

theorem entries_node (around : List Node) (n : Node) :
    (v.node n).entries (around.map v.node) = (n.entries around).map v.entry := by
  rw [Node.entries_eq, Node.entries_eq, children_node, List.map_cons, List.flatMap_map,
    List.map_flatMap]
  congr 1
  refine List.flatMap_congr fun c hc => ?_
  have := Node.sizeOf_lt_of_mem_children hc
  exact entries_node (n :: around) c
termination_by sizeOf n

theorem entries_unit (u : CompilationUnit) : (v.unit u).entries = u.entries.map v.entry := by
  simp only [CompilationUnit.entries, unit, List.flatMap_map, List.map_flatMap]
  refine List.flatMap_congr fun d _ => ?_
  exact v.entries_node [] (.decl d)

theorem walk_unit (u : CompilationUnit) :
    (SyntaxTree.ofUnit (v.unit u)).walk = (SyntaxTree.ofUnit u).walk.map v.node := by
  rw [← CompilationUnit.map_node_entries, ← CompilationUnit.map_node_entries, entries_unit,
    List.map_map, List.map_map]
  rfl

end Respelling

end Stackable
