import Stackable.Syntax.Stmt

/-!
# Declarations

Namespaces hold declarations, types hold members, and methods, constructors and accessors hold
code.
-/

set_option autoImplicit false

namespace Stackable

inductive FnBody where
  | block (body : List Stmt)
  | expr (value : Expr)
deriving Repr

inductive ParamModifier where
  | byRef | byOut | byIn | paramArray | receiver
deriving Repr, DecidableEq

structure Param where
  name : String
  type : TypeRef
  modifier : Option ParamModifier
  default : Option Expr
  span : Span
deriving Repr

inductive TypeKind where
  | classType | structType | interfaceType | recordType | enumType
deriving Repr, DecidableEq

/-- `modifiers T a = x, b;` in a type. -/
structure FieldDecl where
  modifiers : List Modifier
  type : TypeRef
  declarators : List Declarator
deriving Repr

structure MethodDecl where
  modifiers : List Modifier
  returnType : TypeRef
  name : String
  nameSpan : Span
  typeParams : List String
  params : List Param
  body : Option FnBody
deriving Repr

structure ConstructorChain where
  isBase : Bool
  args : List (Argument Expr)
deriving Repr

structure ConstructorDecl where
  modifiers : List Modifier
  name : String
  nameSpan : Span
  params : List Param
  chain : Option ConstructorChain
  body : Option FnBody
deriving Repr

inductive AccessorKind where
  | get | set | init
deriving Repr, DecidableEq

structure Accessor where
  id : NodeId
  kind : AccessorKind
  modifiers : List Modifier
  body : Option FnBody
  span : Span
deriving Repr

/-- A property has accessors and perhaps an initial value, or an expression behind `=>`. -/
structure PropertyDecl where
  modifiers : List Modifier
  type : TypeRef
  name : String
  nameSpan : Span
  accessors : List Accessor
  exprBody : Option Expr
  init : Option Initializer
deriving Repr

structure EnumMember where
  name : String
  nameSpan : Span
  value : Option Expr
deriving Repr

structure TypeDecl (μ : Type) where
  kind : TypeKind
  name : String
  nameSpan : Span
  modifiers : List Modifier
  typeParams : List String
  bases : List TypeRef
  members : List μ
deriving Repr

inductive MemberKind (μ : Type) where
  | field (decl : FieldDecl)
  | method (decl : MethodDecl)
  | constructor (decl : ConstructorDecl)
  | property (decl : PropertyDecl)
  | typeDecl (decl : TypeDecl μ)
  | enumMember (decl : EnumMember)
deriving Repr

structure Member where
  id : NodeId
  kind : MemberKind Member
  span : Span
deriving Repr

structure UsingDirective where
  path : List String
  aliasName : Option String
  isStatic : Bool
deriving Repr

structure NamespaceDecl (δ : Type) where
  name : List String
  decls : List δ
  fileScoped : Bool
deriving Repr

inductive DeclKind (δ : Type) where
  | usingDecl (directive : UsingDirective)
  | namespaceDecl (decl : NamespaceDecl δ)
  | typeDecl (decl : TypeDecl Member)
deriving Repr

structure Decl where
  id : NodeId
  kind : DeclKind Decl
  span : Span
deriving Repr

structure CompilationUnit where
  decls : List Decl
  span : Span
deriving Repr

/-- A method or a constructor: the members whose code is analysed. -/
structure Function where
  member : Member
  name : String
  modifiers : List Modifier
  params : List Param
  body : Option FnBody
  isConstructor : Bool

def Member.function? (m : Member) : Option Function :=
  match m.kind with
  | .method d => some ⟨m, d.name, d.modifiers, d.params, d.body, false⟩
  | .constructor d => some ⟨m, d.name, d.modifiers, d.params, d.body, true⟩
  | _ => none

end Stackable
