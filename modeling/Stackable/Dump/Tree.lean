import Stackable.Dump.Basic
import Stackable.Dump.Label

/-!
# Dumps of tokens and trees
-/

set_option autoImplicit false

namespace Stackable

def Span.dump (s : Span) : Dump := .record "Span" [("start", .nat s.start), ("end", .nat s.stop)]

def TokenKind.dump : TokenKind → Dump
  | .int value suffix => .tuple "Int" [.nat value, .option (fun s => .word s.label) suffix]
  | .real value suffix => .tuple "Real" [.real value, .option (fun s => .word s.label) suffix]
  | .string value => .tuple "String" [.string value]
  | .char value => .tuple "Char" [.char value]
  | .bool value => .tuple "Bool" [.bool value]
  | .ident name => .tuple "Ident" [.string name]
  | k => .word k.label

namespace Dump

def id (n : NodeId) : Dump := .tuple "NodeId" [.nat n]

def strings (l : List String) : Dump := .list (l.map .string)

def modifiers (l : List Modifier) : Dump :=
  .record "Modifiers" [("list", .list (l.map fun m => .word m.label))]

end Dump

/-! ## Types -/

mutual

def TypeRef.dump : TypeRef → Dump
  | ⟨kind, span⟩ =>
    let k := match kind with
      | .predefined p => .tuple "Predefined" [.word p.label]
      | .named path args => .record "Named" [("path", .strings path), ("args", .list (dumpTypes args))]
      | .array element ranks =>
        .record "Array" [("element", element.dump), ("ranks", .list (ranks.map .nat))]
      | .pointer inner => .tuple "Pointer" [inner.dump]
      | .nullable inner => .tuple "Nullable" [inner.dump]
    .record "TypeRef" [("kind", k), ("span", span.dump)]

def dumpTypes : List TypeRef → List Dump
  | [] => []
  | t :: ts => t.dump :: dumpTypes ts

end

/-! ## Expressions -/

mutual

def Expr.dump : Expr → Dump
  | ⟨id, kind, span⟩ =>
    let k := match kind with
      | .int value suffix => .tuple "Int" [.nat value, .option (fun s => .word s.label) suffix]
      | .real value suffix => .tuple "Real" [.real value, .option (fun s => .word s.label) suffix]
      | .string value => .tuple "String" [.string value]
      | .char value => .tuple "Char" [.char value]
      | .bool value => .tuple "Bool" [.bool value]
      | .null => .word "Null"
      | .ident name => .tuple "Ident" [.string name]
      | .this => .word "This"
      | .base => .word "Base"
      | .member object name conditional =>
        .record "Member"
          [("object", object.dump), ("name", .string name), ("conditional", .bool conditional)]
      | .invocation callee args =>
        .record "Invocation" [("callee", callee.dump), ("args", .list (dumpArguments args))]
      | .elementAccess object args =>
        .record "ElementAccess" [("object", object.dump), ("args", .list (dumpArguments args))]
      | .objectCreation type args initializer =>
        .record "ObjectCreation"
          [("ty", .option TypeRef.dump type), ("args", .list (dumpArguments args)),
            ("initializer", dumpInitializer initializer)]
      | .arrayCreation element ranks initializer =>
        .record "ArrayCreation"
          [("element", element.dump), ("ranks", .list (dumpRanks ranks)),
            ("initializer", dumpInitializer initializer)]
      | .implicitArrayCreation elements =>
        .record "ImplicitArrayCreation" [("elements", .list (dumpExprs elements))]
      | .stackAlloc element size initializer =>
        .record "StackAlloc"
          [("element", .option TypeRef.dump element), ("size", dumpOptional size),
            ("initializer", dumpInitializer initializer)]
      | .arrayInitializer elements => .tuple "ArrayInitializer" [.list (dumpExprs elements)]
      | .assign op target value =>
        .record "Assign" [("op", .word op.label), ("target", target.dump), ("value", value.dump)]
      | .conditional cond whenTrue whenFalse =>
        .record "Conditional"
          [("cond", cond.dump), ("then_expr", whenTrue.dump), ("else_expr", whenFalse.dump)]
      | .binary op left right =>
        .record "Binary" [("op", .word op.label), ("left", left.dump), ("right", right.dump)]
      | .unary op operand => .record "Unary" [("op", .word op.label), ("operand", operand.dump)]
      | .suffixed op operand => .record "Postfix" [("op", .word op.label), ("operand", operand.dump)]
      | .cast type expr => .record "Cast" [("ty", type.dump), ("expr", expr.dump)]
      | .isType expr type designation =>
        .record "Is"
          [("expr", expr.dump), ("ty", type.dump), ("designation", .option .string designation)]
      | .asType expr type => .record "As" [("expr", expr.dump), ("ty", type.dump)]
      | .typeOf type => .tuple "TypeOf" [type.dump]
      | .sizeOfType type => .tuple "SizeOf" [type.dump]
      | .defaultOf type => .tuple "Default" [.option TypeRef.dump type]
      | .paren inner => .tuple "Paren" [inner.dump]
    .record "Expr" [("id", .id id), ("kind", k), ("span", span.dump)]

def dumpExprs : List Expr → List Dump
  | [] => []
  | e :: es => e.dump :: dumpExprs es

def dumpOptional : Option Expr → Dump
  | some e => .tuple "Some" [e.dump]
  | none => .word "None"

def dumpInitializer : Option (List Expr) → Dump
  | some elements => .tuple "Some" [.list (dumpExprs elements)]
  | none => .word "None"

def dumpArguments : List (Argument Expr) → List Dump
  | [] => []
  | ⟨name, modifier, expr⟩ :: rest =>
    .record "Argument"
      [("name", .option .string name), ("modifier", .option (fun m => .word m.label) modifier),
        ("expr", expr.dump)] :: dumpArguments rest

def dumpSizes : List (Option Expr) → List Dump
  | [] => []
  | some e :: rest => .tuple "Expr" [e.dump] :: dumpSizes rest
  | none :: rest => .word "Omitted" :: dumpSizes rest

def dumpRanks : List (RankSpecifier Expr) → List Dump
  | [] => []
  | ⟨sizes, span⟩ :: rest =>
    .record "RankSpecifier" [("sizes", .list (dumpSizes sizes)), ("span", span.dump)] ::
      dumpRanks rest

end

/-! ## Statements -/

def Initializer.dump (i : Initializer) : Dump :=
  .record "Initializer" [("eq_span", i.mark.dump), ("value", i.value.dump)]

def Declarator.dump (d : Declarator) : Dump :=
  .record "Declarator"
    [("id", .id d.id), ("name", .string d.name), ("name_span", d.nameSpan.dump),
      ("init", .option Initializer.dump d.init), ("span", d.span.dump)]

def LocalDecl.dump (d : LocalDecl) : Dump :=
  .record "LocalDecl"
    [("ty", d.type.dump), ("is_const", .bool d.isConst),
      ("declarators", .list (d.declarators.map Declarator.dump))]

mutual

def Stmt.dump : Stmt → Dump
  | ⟨id, kind, span⟩ =>
    let k := match kind with
      | .block body => .tuple "Block" [.list (dumpStmts body)]
      | .localDecl d => .tuple "Local" [d.dump]
      | .expr value => .tuple "Expr" [value.dump]
      | .ret value => .tuple "Return" [.option Expr.dump value]
      | .ite cond whenTrue whenFalse =>
        .record "If"
          [("cond", cond.dump), ("then_branch", whenTrue.dump),
            ("else_branch", dumpOptionalStmt whenFalse)]
      | .forLoop init cond update body =>
        .record "For"
          [("init", .list (dumpStmts init)), ("cond", .option Expr.dump cond),
            ("update", .list (update.map Expr.dump)), ("body", body.dump)]
      | .forEach type name iter body =>
        .record "ForEach"
          [("ty", type.dump), ("name", .string name), ("iter", iter.dump), ("body", body.dump)]
      | .whileLoop cond body => .record "While" [("cond", cond.dump), ("body", body.dump)]
      | .doWhile body cond => .record "Do" [("body", body.dump), ("cond", cond.dump)]
      | .switch subject sections =>
        .record "Switch" [("expr", subject.dump), ("sections", .list (dumpSections sections))]
      | .breakStmt => .word "Break"
      | .continueStmt => .word "Continue"
      | .throwStmt value => .tuple "Throw" [.option Expr.dump value]
      | .yieldReturn value => .tuple "YieldReturn" [value.dump]
      | .yieldBreak => .word "YieldBreak"
      | .unsafeBlock body => .tuple "Unsafe" [.list (dumpStmts body)]
      | .fixed d body => .record "Fixed" [("decl", d.dump), ("body", body.dump)]
      | .usingBlock resource body =>
        .record "Using" [("resource", resource.dump), ("body", body.dump)]
      | .lock subject body => .record "Lock" [("expr", subject.dump), ("body", body.dump)]
      | .tryCatch body catches finish =>
        .record "Try"
          [("body", .list (dumpStmts body)), ("catches", .list (dumpCatches catches)),
            ("finally", dumpOptionalBlock finish)]
      | .empty => .word "Empty"
    .record "Stmt" [("id", .id id), ("kind", k), ("span", span.dump)]

def dumpStmts : List Stmt → List Dump
  | [] => []
  | s :: ss => s.dump :: dumpStmts ss

def dumpOptionalStmt : Option Stmt → Dump
  | some s => .tuple "Some" [s.dump]
  | none => .word "None"

def dumpOptionalBlock : Option (List Stmt) → Dump
  | some body => .tuple "Some" [.list (dumpStmts body)]
  | none => .word "None"

def dumpSections : List (SwitchSection Stmt) → List Dump
  | [] => []
  | ⟨labels, body⟩ :: rest =>
    .record "SwitchSection"
      [("labels", .list (labels.map (.option Expr.dump))), ("body", .list (dumpStmts body))] ::
      dumpSections rest

def dumpCatches : List (CatchClause Stmt) → List Dump
  | [] => []
  | ⟨type, name, body, span⟩ :: rest =>
    .record "CatchClause"
      [("ty", .option TypeRef.dump type), ("name", .option .string name),
        ("body", .list (dumpStmts body)), ("span", span.dump)] :: dumpCatches rest

end

/-! ## Declarations -/

def FnBody.dump : FnBody → Dump
  | .block body => .tuple "Block" [.list (body.map Stmt.dump)]
  | .expr value => .tuple "Expr" [value.dump]

def Param.dump (p : Param) : Dump :=
  .record "Param"
    [("name", .string p.name), ("ty", p.type.dump),
      ("modifier", .option (fun m => .word m.label) p.modifier),
      ("default", .option Expr.dump p.default), ("span", p.span.dump)]

def FieldDecl.dump (d : FieldDecl) : Dump :=
  .record "FieldDecl"
    [("modifiers", .modifiers d.modifiers), ("ty", d.type.dump),
      ("declarators", .list (d.declarators.map Declarator.dump))]

def MethodDecl.dump (d : MethodDecl) : Dump :=
  .record "MethodDecl"
    [("modifiers", .modifiers d.modifiers), ("return_ty", d.returnType.dump),
      ("name", .string d.name), ("name_span", d.nameSpan.dump),
      ("type_params", .strings d.typeParams), ("params", .list (d.params.map Param.dump)),
      ("body", .option FnBody.dump d.body)]

def ConstructorChain.dump (c : ConstructorChain) : Dump :=
  .record "ConstructorChain" [("is_base", .bool c.isBase), ("args", .list (dumpArguments c.args))]

def ConstructorDecl.dump (d : ConstructorDecl) : Dump :=
  .record "ConstructorDecl"
    [("modifiers", .modifiers d.modifiers), ("name", .string d.name),
      ("name_span", d.nameSpan.dump), ("params", .list (d.params.map Param.dump)),
      ("chain", .option ConstructorChain.dump d.chain), ("body", .option FnBody.dump d.body)]

def Accessor.dump (a : Accessor) : Dump :=
  .record "Accessor"
    [("id", .id a.id), ("kind", .word a.kind.label), ("modifiers", .modifiers a.modifiers),
      ("body", .option FnBody.dump a.body), ("span", a.span.dump)]

def PropertyDecl.dump (d : PropertyDecl) : Dump :=
  .record "PropertyDecl"
    [("modifiers", .modifiers d.modifiers), ("ty", d.type.dump), ("name", .string d.name),
      ("name_span", d.nameSpan.dump), ("accessors", .list (d.accessors.map Accessor.dump)),
      ("expr_body", .option Expr.dump d.exprBody), ("init", .option Initializer.dump d.init)]

def EnumMember.dump (d : EnumMember) : Dump :=
  .record "EnumMember"
    [("name", .string d.name), ("name_span", d.nameSpan.dump), ("value", .option Expr.dump d.value)]

def TypeDecl.dumpOver {μ : Type} (d : TypeDecl μ) (members : List Dump) : Dump :=
  .record "TypeDecl"
    [("kind", .word d.kind.label), ("name", .string d.name), ("name_span", d.nameSpan.dump),
      ("modifiers", .modifiers d.modifiers), ("type_params", .strings d.typeParams),
      ("bases", .list (d.bases.map TypeRef.dump)), ("members", .list members)]

mutual

def Member.dump : Member → Dump
  | ⟨id, kind, span⟩ =>
    let k := match kind with
      | .field d => .tuple "Field" [d.dump]
      | .method d => .tuple "Method" [d.dump]
      | .constructor d => .tuple "Constructor" [d.dump]
      | .property d => .tuple "Property" [d.dump]
      | .typeDecl ⟨kind, name, nameSpan, modifiers, typeParams, bases, members⟩ =>
        .tuple "Type"
          [TypeDecl.dumpOver (⟨kind, name, nameSpan, modifiers, typeParams, bases, members⟩ : TypeDecl Member)
            (dumpMembers members)]
      | .enumMember d => .tuple "EnumMember" [d.dump]
    .record "Member" [("id", .id id), ("kind", k), ("span", span.dump)]

def dumpMembers : List Member → List Dump
  | [] => []
  | m :: ms => m.dump :: dumpMembers ms

end

def UsingDirective.dump (d : UsingDirective) : Dump :=
  .record "UsingDirective"
    [("path", .strings d.path), ("alias", .option .string d.aliasName), ("is_static", .bool d.isStatic)]

mutual

def Decl.dump : Decl → Dump
  | ⟨id, kind, span⟩ =>
    let k := match kind with
      | .usingDecl d => .tuple "Using" [d.dump]
      | .namespaceDecl ⟨name, decls, fileScoped⟩ =>
        .tuple "Namespace"
          [.record "NamespaceDecl"
            [("name", .strings name), ("decls", .list (dumpDecls decls)),
              ("file_scoped", .bool fileScoped)]]
      | .typeDecl d => .tuple "Type" [d.dumpOver (d.members.map Member.dump)]
    .record "Decl" [("id", .id id), ("kind", k), ("span", span.dump)]

def dumpDecls : List Decl → List Dump
  | [] => []
  | d :: ds => d.dump :: dumpDecls ds

end

end Stackable
