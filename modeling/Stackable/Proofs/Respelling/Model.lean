import Stackable.Model.Evaluation
import Stackable.Proofs.Respelling.Tree
import Stackable.Proofs.Symbol.Collection

/-!
# What names mean under a respelling

A respelling moves spans and makes one array creation one on the stack. Neither has a name or a
value of its own, and moved offsets keep their order. So look-ups, bindings and values in the
respelled unit are those of the unit itself, with the declarations they lead to respelled.
-/

set_option autoImplicit false

namespace Stackable

namespace Respelling

variable (v : Respelling) (u : CompilationUnit)

/-- The tables hold the respelled nodes under the same numbers. -/
theorem ofUnit_unit : SyntaxTree.ofUnit (v.unit u) =
    ⟨v.unit u, (SyntaxTree.ofUnit u).nodes.mapValues v.node, (SyntaxTree.ofUnit u).parents⟩ := by
  have hNodes : (u.entries.map v.entry).map Entry.numbered =
      (u.entries.map Entry.numbered).map fun e => (e.1, v.node e.2) := by
    simp [Entry.numbered, entry, Function.comp_def]
  have hParents : (u.entries.map v.entry).filterMap Entry.upward? =
      u.entries.filterMap Entry.upward? := by
    rw [List.filterMap_map]
    congr 1
    funext e
    simp [Entry.upward?, entry, List.head?_map, Function.comp_def]
  rw [SyntaxTree.ofUnit_eq, SyntaxTree.ofUnit_eq, entries_unit, hNodes, hParents,
    ← Table.addAll_mapValues]
  rfl

theorem node?_unit (id : NodeId) : (SyntaxTree.ofUnit (v.unit u)).node? id =
    ((SyntaxTree.ofUnit u).node? id).map v.node := by
  rw [ofUnit_unit, SyntaxTree.node?, Table.get?_mapValues]
  rfl

theorem size_unit : (SyntaxTree.ofUnit (v.unit u)).size = (SyntaxTree.ofUnit u).size := by
  rw [ofUnit_unit, SyntaxTree.size, Table.size_mapValues]
  rfl

theorem parent?_unit (id : NodeId) : (SyntaxTree.ofUnit (v.unit u)).parent? id =
    ((SyntaxTree.ofUnit u).parent? id).map v.node := by
  have hParents : (SyntaxTree.ofUnit (v.unit u)).parents = (SyntaxTree.ofUnit u).parents := by
    rw [ofUnit_unit]
  rw [SyntaxTree.parent?, hParents, SyntaxTree.parent?]
  cases (SyntaxTree.ofUnit u).parents.get? id with
  | none => rfl
  | some up => exact v.node?_unit u up

theorem ancestors_unit (id : NodeId) : (SyntaxTree.ofUnit (v.unit u)).ancestors id =
    ((SyntaxTree.ofUnit u).ancestors id).map v.node := by
  have hTake : ∀ steps id, (Ancestors.mk (.ofUnit (v.unit u)) id).take steps =
      ((Ancestors.mk (.ofUnit u) id).take steps).map v.node := by
    intro steps
    induction steps with
    | zero => exact fun _ => rfl
    | succ steps ih =>
      intro id
      rw [Ancestors.take, Ancestors.take, Ancestors.next?, Ancestors.next?, parent?_unit]
      cases (SyntaxTree.ofUnit u).parent? id with
      | none => rfl
      | some p =>
        have hRest := ih p.id
        simp only [Option.map_some, List.map_cons, node_id, hRest]
  rw [SyntaxTree.ancestors, SyntaxTree.ancestors, size_unit, hTake]

def symbol (s : Symbol) : Symbol := { s with span := v.span s.span }

def collected (c : Collected) : Collected := ⟨c.symbols.map v.symbol, c.direct⟩

theorem collected_append (a b : Collected) :
    (v.collected a).append (v.collected b) = v.collected (a.append b) := by
  simp [collected, Collected.append]

theorem declaratorSymbols_map (owner : SymbolId) (qualified : String) (isConst : Bool)
    (next : SymbolId) (ds : List Declarator) :
    declaratorSymbols owner qualified isConst next (ds.map v.declarator) =
      v.collected (declaratorSymbols owner qualified isConst next ds) := by
  induction ds generalizing next with
  | nil => rfl
  | cons d ds ih =>
    rw [List.map_cons, declaratorSymbols, ih, declaratorSymbols, ← collected_append]
    rfl

mutual

theorem symbols_member (owner : SymbolId) (path : List String) (next : SymbolId) (m : Member) :
    (v.member m).symbols owner path next = v.collected (m.symbols owner path next) := by
  obtain ⟨id, kind, span⟩ := m
  cases kind with
  | field d => exact v.declaratorSymbols_map owner _ _ next d.declarators
  | method d => rfl
  | constructor d => rfl
  | property d => rfl
  | enumMember d => rfl
  | typeDecl d =>
    obtain ⟨kind, name, nameSpan, modifiers, typeParams, bases, members⟩ := d
    have hMembers := symbols_members next (path ++ [name]) (next + 1) members
    simp only [member, memberKind, typeDecl, members_eq, Member.symbols, hMembers, collected,
      List.map_cons]
    rfl

theorem symbols_members (owner : SymbolId) (path : List String) (next : SymbolId)
    (ms : List Member) : memberSymbols owner path next (ms.map v.member) =
      v.collected (memberSymbols owner path next ms) := by
  match ms with
  | [] => rfl
  | m :: ms =>
    have hLength : ((v.collected (m.symbols owner path next)).symbols).length =
        (m.symbols owner path next).symbols.length := List.length_map _
    rw [List.map_cons, memberSymbols, memberSymbols, symbols_member, symbols_members, hLength,
      collected_append]

end

mutual

theorem symbols_decl (path : List String) (next : SymbolId) (d : Decl) :
    (v.decl d).symbols path next = (d.symbols path next).map v.symbol := by
  obtain ⟨id, kind, span⟩ := d
  cases kind with
  | usingDecl directive => rfl
  | namespaceDecl n =>
    obtain ⟨name, decls, fileScoped⟩ := n
    simp only [decl, declKind, namespaceDecl, decls_eq, Decl.symbols]
    exact symbols_decls (path ++ name) next decls
  | typeDecl t =>
    exact congrArg Collected.symbols (v.symbols_member next path next ⟨id, .typeDecl t, span⟩)

theorem symbols_decls (path : List String) (next : SymbolId) (ds : List Decl) :
    declSymbols path next (ds.map v.decl) = (declSymbols path next ds).map v.symbol := by
  match ds with
  | [] => rfl
  | d :: ds =>
    rw [List.map_cons, declSymbols, declSymbols, symbols_decl, symbols_decls, List.length_map,
      List.map_append]

end

theorem symbols_unit : (SymbolTable.ofUnit (v.unit u)).symbols =
    (SymbolTable.ofUnit u).symbols.map v.symbol := by
  rw [SymbolTable.ofUnit_eq, SymbolTable.ofUnit_eq, SymbolTable.symbols_extend,
    SymbolTable.symbols_extend]
  exact v.symbols_decls [] 0 u.decls

theorem findType?_unit (path : List String) : (Model.ofUnit (v.unit u)).findType? path =
    ((Model.ofUnit u).findType? path).map v.symbol := by
  have hTypes : ∀ name, (Model.ofUnit (v.unit u)).symbols.typesNamed name =
      ((Model.ofUnit u).symbols.typesNamed name).map v.symbol := by
    intro name
    change (SymbolTable.ofUnit (v.unit u)).typesNamed name = _
    rw [(SymbolTable.indexed_ofUnit _).typesNamed_eq, symbols_unit, List.filter_map]
    exact congrArg _ ((SymbolTable.indexed_ofUnit u).typesNamed_eq name).symm
  unfold Model.findType?
  cases path.getLast? with
  | none => rfl
  | some last =>
    rw [Option.bind_some, Option.bind_some, hTypes, List.find?_map]
    rfl

theorem resolveName_unit (path : List String) (isGeneric : Bool) :
    (Model.ofUnit (v.unit u)).resolveName path isGeneric =
      (Model.ofUnit u).resolveName path isGeneric := by
  unfold Model.resolveName
  rw [findType?_unit]
  cases (Model.ofUnit u).findType? path <;> rfl

theorem resolveType_unit (t : TypeRef) : (Model.ofUnit (v.unit u)).resolveType (v.typeRef t) =
    (Model.ofUnit u).resolveType t := by
  obtain ⟨kind, span⟩ := t
  cases kind with
  | predefined p => rfl
  | named path args =>
    simp only [typeRef, typeRefKind, Model.resolveType, resolveName_unit, typeRefs_eq,
      List.isEmpty_map]
  | array element ranks =>
    simp only [typeRef, typeRefKind, Model.resolveType, resolveType_unit element]
  | pointer inner => simp only [typeRef, typeRefKind, Model.resolveType, resolveType_unit inner]
  | nullable inner => simp only [typeRef, typeRefKind, Model.resolveType, resolveType_unit inner]

/-- What holds of every array creation, on the stack or not, holds of a respelled one. -/
theorem expr_creation {P : Expr → Prop}
    (hArray : ∀ id element ranks init span, P ⟨id, .arrayCreation element ranks init, span⟩)
    (hStack : ∀ id element size init span, P ⟨id, .stackAlloc element size init, span⟩)
    (id : NodeId) (element : TypeRef) (ranks : List (RankSpecifier Expr))
    (init : Option (List Expr)) (span : Span) :
    P (v.expr ⟨id, .arrayCreation element ranks init, span⟩) := by
  rw [expr, exprKind]
  rcases v.creation_cases span.start (v.typeRef element) (v.rankSpecifiers ranks) (v.exprs? init)
    with ⟨size, _, _, _, h⟩ | h
  · rw [h]
    apply hStack
  · rw [h]
    apply hArray

theorem unparenthesized_expr (e : Expr) : (v.expr e).unparenthesized = v.expr e.unparenthesized := by
  obtain ⟨id, kind, span⟩ := e
  cases kind
  case paren inner => exact unparenthesized_expr inner
  case arrayCreation element ranks init =>
    exact v.expr_creation (P := fun e => e.unparenthesized = e) (by intros; rfl) (by intros; rfl)
      id element ranks init span
  all_goals rfl

theorem ident?_expr (e : Expr) : (v.expr e).ident? = e.ident? := by
  obtain ⟨id, kind, span⟩ := e
  cases kind
  case arrayCreation element ranks init =>
    exact v.expr_creation (P := fun e => e.ident? = none) (by intros; rfl) (by intros; rfl)
      id element ranks init span
  all_goals rfl

theorem dottedPath?_expr (e : Expr) : Model.dottedPath? (v.expr e) = Model.dottedPath? e := by
  obtain ⟨id, kind, span⟩ := e
  cases kind
  case member object name conditional =>
    cases conditional with
    | false => simp only [expr, exprKind, Model.dottedPath?, dottedPath?_expr object]
    | true => rfl
  case arrayCreation element ranks init =>
    exact v.expr_creation (P := fun e => Model.dottedPath? e = none) (by intros; rfl)
      (by intros; rfl) id element ranks init span
  all_goals rfl

def function (f : Function) : Function :=
  ⟨v.member f.member, f.name, f.modifiers, f.params.map v.param, f.body.map v.fnBody, f.isConstructor⟩

theorem function?_member (m : Member) : (v.member m).function? = m.function?.map v.function := by
  obtain ⟨id, kind, span⟩ := m
  cases kind <;> rfl

theorem function?_node (n : Node) : (v.node n).function? = n.function?.map v.function := by
  cases n with
  | member m => exact v.function?_member m
  | decl | declarator | accessor | stmt | expr => rfl

theorem typeDecl?_node (n : Node) : (v.node n).typeDecl? = n.typeDecl?.map v.typeDecl := by
  cases n with
  | decl d =>
    obtain ⟨id, kind, span⟩ := d
    cases kind <;> rfl
  | member m =>
    obtain ⟨id, kind, span⟩ := m
    cases kind <;> rfl
  | declarator | accessor | stmt | expr => rfl

def localDeclaration : LocalDeclaration → LocalDeclaration
  | .constant d => .constant (v.declarator d)
  | .variable => .variable

theorem isConstLocal_unit (d : Declarator) :
    (Model.ofUnit (v.unit u)).isConstLocal (v.declarator d) = (Model.ofUnit u).isConstLocal d := by
  have hParent : (Model.ofUnit (v.unit u)).tree.parent? (v.declarator d).id =
      ((Model.ofUnit u).tree.parent? d.id).map v.node := v.parent?_unit u d.id
  unfold Model.isConstLocal
  rw [hParent]
  cases (Model.ofUnit u).tree.parent? d.id with
  | none => rfl
  | some n =>
    cases n with
    | stmt s =>
      obtain ⟨id, kind, span⟩ := s
      cases kind <;> rfl
    | decl | member | declarator | accessor | expr => rfl

theorem outArguments_map (args : List (Argument Expr)) (name : String) :
    Model.outArguments (args.map v.argument) name = Model.outArguments args name := by
  have hSame : (fun a : Argument Expr => a.modifier == some .byOut && a.expr.ident? == some name) ∘
      v.argument = fun a => a.modifier == some .byOut && a.expr.ident? == some name := by
    funext a
    simp [ident?_expr]
  rw [Model.outArguments, List.filter_map, hSame, List.map_map]
  rfl

theorem outArguments_variable (args : List (Argument Expr)) (name : String) :
    (Model.outArguments args name).map v.localDeclaration = Model.outArguments args name := by
  rw [Model.outArguments, List.map_map]
  rfl

theorem declaredBy_node (name : String) (n : Node) :
    (Model.ofUnit (v.unit u)).declaredBy name (v.node n) =
      ((Model.ofUnit u).declaredBy name n).map v.localDeclaration := by
  have one : ∀ (cond : Prop) [Decidable cond], (if cond then [LocalDeclaration.variable] else []) =
      (if cond then [LocalDeclaration.variable] else []).map v.localDeclaration := by
    intro cond _
    split <;> rfl
  cases n with
  | declarator d =>
    have hName : (v.declarator d).name = d.name := rfl
    simp only [node, Model.declaredBy, isConstLocal_unit, hName]
    split
    · cases (Model.ofUnit u).isConstLocal d <;> rfl
    · rfl
  | stmt s =>
    obtain ⟨id, kind, span⟩ := s
    cases kind
    case forEach type var iter body => exact one _
    case tryCatch body catches finish =>
      simp only [node, stmt, stmtKind, Model.declaredBy, catchClauses_eq, List.filter_map,
        List.map_map, Function.comp_def, catchClause_name]
      rfl
    all_goals rfl
  | expr e =>
    obtain ⟨id, kind, span⟩ := e
    have passed : ∀ args : List (Argument Expr), Model.outArguments (v.arguments args) name =
        (Model.outArguments args name).map v.localDeclaration := by
      intro args
      rw [arguments_eq, outArguments_map, outArguments_variable]
    cases kind
    case isType operand type designation => exact one _
    case invocation callee args => exact passed args
    case elementAccess object args => exact passed args
    case objectCreation type args init => exact passed args
    case arrayCreation element ranks init =>
      exact v.expr_creation (P := fun e => (Model.ofUnit (v.unit u)).declaredBy name (.expr e) = [])
        (by intros; rfl) (by intros; rfl) id element ranks init span
    all_goals rfl
  | decl | member | accessor => rfl

theorem localDeclarations_unit (m : Member) (name : String) :
    (Model.ofUnit (v.unit u)).localDeclarations (v.member m) name =
      ((Model.ofUnit u).localDeclarations m name).map v.localDeclaration := by
  have hBelow : (Node.member (v.member m)).descendants = (Node.member m).descendants.map v.node :=
    v.descendants_node (.member m)
  rw [Model.localDeclarations, hBelow, List.flatMap_map, Model.localDeclarations, List.map_flatMap]
  simp only [declaredBy_node]

theorem scope?_unit (d : Declarator) : (Model.ofUnit (v.unit u)).scope? (v.declarator d) =
    ((Model.ofUnit u).scope? d).map v.node := by
  have hParent : ∀ id, (Model.ofUnit (v.unit u)).tree.parent? id =
      ((Model.ofUnit u).tree.parent? id).map v.node := v.parent?_unit u
  simp only [Model.scope?, hParent]
  change (((Model.ofUnit u).tree.parent? d.id).map v.node >>= _) = _
  cases (Model.ofUnit u).tree.parent? d.id with
  | none => rfl
  | some stmt => simp

theorem inScope_unit (d : Declarator) (use : NodeId) :
    (Model.ofUnit (v.unit u)).inScope (v.declarator d) use = (Model.ofUnit u).inScope d use := by
  have hAround : (Model.ofUnit (v.unit u)).tree.ancestors use =
      ((Model.ofUnit u).tree.ancestors use).map v.node := v.ancestors_unit u use
  have hUse : (Model.ofUnit (v.unit u)).tree.node? use =
      ((Model.ofUnit u).tree.node? use).map v.node := v.node?_unit u use
  rw [Model.inScope, Model.inScope, scope?_unit, hAround, hUse]
  match (Model.ofUnit u).scope? d, (Model.ofUnit u).tree.node? use with
  | none, _ | some _, none => rfl
  | some scope, some n =>
    have hAny : (fun n : Node => n.id == (v.node scope).id) ∘ v.node =
        fun n => n.id == scope.id := by
      funext n
      simp
    simp only [Option.map_some, List.any_map, hAny]
    simp [declarator, span, shift_le_shift]

def binding : Binding → Binding
  | .constLocal d => .constLocal (v.declarator d)
  | .constField d => .constField (v.declarator d)
  | .variable => .variable
  | .parameter => .parameter
  | .field => .field
  | .unresolved => .unresolved

theorem fieldBinding?_map (ms : List Member) (name : String) :
    Model.fieldBinding? (ms.map v.member) name =
      (Model.fieldBinding? ms name).map v.binding := by
  unfold Model.fieldBinding?
  induction ms with
  | nil => rfl
  | cons m ms ih =>
    rw [List.map_cons, List.findSome?_cons, List.findSome?_cons, ih]
    obtain ⟨id, kind, span⟩ := m
    cases kind
    case field f =>
      have hFind : ((v.fieldDecl f).declarators.find? (·.name == name)) =
          (f.declarators.find? (·.name == name)).map v.declarator := by
        rw [fieldDecl, List.find?_map]
        rfl
      simp only [member, memberKind, hFind]
      cases f.declarators.find? (·.name == name) with
      | none => rfl
      | some d =>
        simp only [Option.map_some, fieldDecl]
        rw [apply_ite v.binding]
        rfl
    all_goals rfl

theorem bindLocal?_unit (f : Function) (use : NodeId) (name : String) :
    (Model.ofUnit (v.unit u)).bindLocal? (v.function f) use name =
      ((Model.ofUnit u).bindLocal? f use name).map v.binding := by
  have hParams : (v.function f).params.any (·.name == name) = f.params.any (·.name == name) := by
    rw [function, List.any_map]
    rfl
  unfold Model.bindLocal?
  rw [hParams, show (v.function f).member = v.member f.member from rfl, localDeclarations_unit]
  split
  · rfl
  · match (Model.ofUnit u).localDeclarations f.member name with
    | [] => rfl
    | [.constant d] =>
      simp only [List.map_cons, List.map_nil, localDeclaration, inScope_unit, Option.map_some]
      split <;> rfl
    | [.variable] => rfl
    | .constant d :: _ :: _ => rfl
    | .variable :: _ :: _ => rfl

theorem bindField_map (around : List Node) (name : String) :
    Model.bindField (around.map v.node) name = v.binding (Model.bindField around name) := by
  have hTypes : (around.map v.node).filterMap Node.typeDecl? =
      (around.filterMap Node.typeDecl?).map v.typeDecl := by
    rw [List.filterMap_map, List.map_filterMap]
    exact List.filterMap_congr fun n _ => v.typeDecl?_node n
  have hFound : ∀ types : List (TypeDecl Member),
      ((types.map v.typeDecl).findSome? fun t => Model.fieldBinding? t.members name) =
        (types.findSome? fun t => Model.fieldBinding? t.members name).map v.binding := by
    intro types
    induction types with
    | nil => rfl
    | cons t types ih =>
      rw [List.map_cons, List.findSome?_cons, List.findSome?_cons, ih, typeDecl_members,
        fieldBinding?_map]
      cases Model.fieldBinding? t.members name <;> rfl
  rw [Model.bindField, hTypes, hFound, Model.bindField]
  cases (around.filterMap Node.typeDecl?).findSome? fun t => Model.fieldBinding? t.members name <;> rfl

theorem bindSimple_unit (use : NodeId) (name : String) :
    (Model.ofUnit (v.unit u)).bindSimple use name =
      v.binding ((Model.ofUnit u).bindSimple use name) := by
  have hAround : (Model.ofUnit (v.unit u)).tree.ancestors use =
      ((Model.ofUnit u).tree.ancestors use).map v.node := v.ancestors_unit u use
  have hFunction : ∀ around : List Node, (around.map v.node).findSome? Node.function? =
      (around.findSome? Node.function?).map v.function := by
    intro around
    induction around with
    | nil => rfl
    | cons n around ih =>
      rw [List.map_cons, List.findSome?_cons, List.findSome?_cons, ih, function?_node]
      cases n.function? <;> rfl
  unfold Model.bindSimple
  dsimp only
  rw [hAround, hFunction, bindField_map]
  cases ((Model.ofUnit u).tree.ancestors use).findSome? Node.function? with
  | none => rfl
  | some f =>
    rw [Option.map_some, Option.bind_some, Option.bind_some, bindLocal?_unit]
    cases (Model.ofUnit u).bindLocal? f use name <;> rfl

theorem bindQualified_unit (path : List String) (name : String) :
    (Model.ofUnit (v.unit u)).bindQualified path name =
      v.binding ((Model.ofUnit u).bindQualified path name) := by
  have hNode : ∀ id, (Model.ofUnit (v.unit u)).tree.node? id =
      ((Model.ofUnit u).tree.node? id).map v.node := v.node?_unit u
  unfold Model.bindQualified
  rw [findType?_unit]
  cases (Model.ofUnit u).findType? path with
  | none => rfl
  | some s =>
    rw [Option.map_some, Option.bind_some, Option.bind_some, hNode, show (v.symbol s).node = s.node from rfl]
    cases (Model.ofUnit u).tree.node? s.node with
    | none => rfl
    | some n =>
      rw [Option.map_some, Option.bind_some, Option.bind_some, typeDecl?_node]
      cases n.typeDecl? with
      | none => rfl
      | some t =>
        rw [Option.map_some, Option.bind_some, Option.bind_some, typeDecl_members, fieldBinding?_map]
        cases Model.fieldBinding? t.members name <;> rfl

theorem bind_unit (e : Expr) : (Model.ofUnit (v.unit u)).bind (v.expr e) =
    v.binding ((Model.ofUnit u).bind e) := by
  obtain ⟨id, kind, span⟩ := e
  cases kind
  case paren inner => exact bind_unit inner
  case ident name => exact v.bindSimple_unit u id name
  case member object name conditional =>
    cases conditional with
    | true => rfl
    | false =>
      simp only [Model.bind, expr, exprKind, Expr.unparenthesized, dottedPath?_expr]
      cases Model.dottedPath? object with
      | none => rfl
      | some path => exact v.bindQualified_unit u path name
  case arrayCreation element ranks init =>
    exact v.expr_creation (P := fun e => (Model.ofUnit (v.unit u)).bind e = .unresolved)
      (by intros; rfl) (by intros; rfl) id element ranks init span
  all_goals rfl

theorem isConstantReference_unit (e : Expr) :
    (Model.ofUnit (v.unit u)).isConstantReference (v.expr e) =
      (Model.ofUnit u).isConstantReference e := by
  unfold Model.isConstantReference
  rw [bind_unit]
  cases (Model.ofUnit u).bind e <;> rfl

/-! ## Values -/

theorem evalWith_unit {f g : Expr → Except Model.Halt ConstValue}
    (h : ∀ x, g (v.expr x) = f x) (e : Expr) :
    (Model.ofUnit (v.unit u)).evalWith g (v.expr e) = (Model.ofUnit u).evalWith f e := by
  obtain ⟨id, kind, span⟩ := e
  cases kind
  case paren inner => exact evalWith_unit h inner
  case unary op operand =>
    simp only [expr, exprKind, Model.evalWith, evalWith_unit h operand]
  case binary op left right =>
    simp only [expr, exprKind, Model.evalWith, evalWith_unit h left, evalWith_unit h right]
  case conditional cond whenTrue whenFalse =>
    simp only [expr, exprKind, Model.evalWith, evalWith_unit h cond, evalWith_unit h whenTrue,
      evalWith_unit h whenFalse]
  case cast type operand =>
    simp only [expr, exprKind, Model.evalWith, evalWith_unit h operand, resolveType_unit]
  case ident name => exact h ⟨id, .ident name, span⟩
  case member object name conditional => exact h ⟨id, .member object name conditional, span⟩
  case arrayCreation element ranks init =>
    exact v.expr_creation
      (P := fun e => (Model.ofUnit (v.unit u)).evalWith g e = .error (.refused .notConstant))
      (by intros; rfl) (by intros; rfl) id element ranks init span
  all_goals rfl

theorem evalName_unit (depth : Nat) (visiting : List NodeId) (e : Expr) :
    (Model.ofUnit (v.unit u)).evalName depth visiting (v.expr e) =
      (Model.ofUnit u).evalName depth visiting e := by
  induction depth generalizing visiting e with
  | zero =>
    rw [Model.evalName.eq_def, Model.evalName.eq_def]
    dsimp only
    rw [bind_unit]
    cases (Model.ofUnit u).bind e with
    | constLocal d | constField d =>
      simp only [binding, declarator]
      split
      · rfl
      · cases d.init <;> rfl
    | «variable» | parameter | field | unresolved => rfl
  | succ depth ih =>
    rw [Model.evalName.eq_def, Model.evalName.eq_def]
    dsimp only
    rw [bind_unit]
    cases (Model.ofUnit u).bind e with
    | constLocal d | constField d =>
      simp only [binding, declarator]
      split
      · rfl
      · cases d.init with
        | none => rfl
        | some init => exact v.evalWith_unit u (ih (d.id :: visiting)) init.value
    | «variable» | parameter | field | unresolved => rfl

theorem evaluate_unit (e : Expr) : (Model.ofUnit (v.unit u)).evaluate (v.expr e) =
    (Model.ofUnit u).evaluate e := by
  have hSize : (Model.ofUnit (v.unit u)).tree.size = (Model.ofUnit u).tree.size := v.size_unit u
  rw [Model.evaluate, hSize, v.evalWith_unit u (v.evalName_unit u _ []) e, Model.evaluate]

theorem constantValue?_unit (e : Expr) : (Model.ofUnit (v.unit u)).constantValue? (v.expr e) =
    (Model.ofUnit u).constantValue? e := by
  rw [Model.constantValue?, evaluate_unit, Model.constantValue?]

end Respelling

end Stackable
